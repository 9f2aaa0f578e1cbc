import Zephyr.Kernel.SchedFrame
import Mathlib.Tactic.NormNum
/-!
# Who may be switched out (kernel/sched.c, kernel/include/ksched.h)

`_ready_q.cache` holds the decision who runs next, made by `update_cache` at each of the places where a
queue changes. `DispatchOp` has the operations of `SchedOp` and the rest of what acts on that decision.

`CONFIG_SCHED_MULTIQ` excludes deadlines (Kconfig). A tree whose keys are changed under it is no subject here:
trees are taken without deadlines.
-/
namespace Zephyr

open Ring StableQueue Sched Option

variable {N : Nat} {W σ : Type}

/-! ## Deadlines -/

structure DeadlineMem (ι : Type) (N : Nat) where
  links : Links (QNode ι N)
  prioDeadline : Fin N → BitVec 32
  now : BitVec 32

/-- `_is_t1_higher_prio_than_t2` (sched.c:88): priority first, then the deadline that is nearer. -/
def isHigherWithDeadline {ι : Type} (m : DeadlineMem ι N) (prio : Fin N → ℤ) (t1 t2 : Fin N) : Bool :=
  if prio t1 < prio t2 then true
  else if prio t1 > prio t2 then false
  else (m.prioDeadline t1 - m.now).toInt < (m.prioDeadline t2 - m.now).toInt

/-- The same order as one number. -/
def deadlineKey {ι : Type} (m : DeadlineMem ι N) (prio : Fin N → ℤ) (t : Fin N) : ℤ :=
    prio t * 2 ^ 32 + (m.prioDeadline t - m.now).toInt

theorem deadlineKey_lt {ι : Type} {m : DeadlineMem ι N} {prio : Fin N → ℤ} {t1 t2 : Fin N} :
    deadlineKey m prio t1 < deadlineKey m prio t2 ↔ isHigherWithDeadline m prio t1 t2 = true := by
  have h1 := BitVec.le_two_mul_toInt (x := m.prioDeadline t1 - m.now)
  have h2 := BitVec.two_mul_toInt_lt (x := m.prioDeadline t1 - m.now)
  have h3 := BitVec.le_two_mul_toInt (x := m.prioDeadline t2 - m.now)
  have h4 := BitVec.two_mul_toInt_lt (x := m.prioDeadline t2 - m.now)
  unfold deadlineKey isHigherWithDeadline
  split
  · simp only [iff_true]
    omega
  split
  · simp only [Bool.false_eq_true, iff_false]
    omega
  · rw [decide_eq_true_eq]
    omega

def deadlineQueues (N : Nat) (W : Type) [DecidableEq W] : Queues N W (DeadlineMem (QueueId W) N) where
  add prio m i thread := (priqDumbAdd (deadlineKey m prio) m.links (.head i) thread).map fun links =>
  { m with links := links }
  remove _ m _ thread := some { m with links := priqDumbRemove m.links thread }
  best m i := priqDumbBest m.links (.head i)

/-- A place in the list depends on the deadlines of all in it, so nothing is said of the order. -/
def deadlineLawful (N : Nat) (W : Type) [DecidableEq W] : (deadlineQueues N W).Lawful where
  Rep _ m L := DumbRep m.links L
  Valid _ := True
  Fresh _ _ _ _ _ := False
  RekeyOk _ _ _ _ := True
  nodup h i := h.nodup i
  disj h := h.disj'
  add_spec {prio m L x} h hx _ i := by
    obtain ⟨links, hadd, hrep⟩ := priqDumbAdd_spec (deadlineKey m prio) (i := i) h hx
    exact ⟨{ m with links := links }, _, by simp [deadlineQueues, hadd], hrep, perm_enq, False.elim⟩
  remove_spec h hx := ⟨_, rfl, priqDumbRemove_spec h hx, fun _ _ _ => False.elim⟩
  best_spec h i := priqDumbBest_spec h i
  rekey_spec h _ _ := h
  rekeyOk_of_keepsPlace _ := trivial

/-- What there is beyond the queues with `CONFIG_SCHED_DEADLINE`. -/
structure Deadlines (N : Nat) (σ : Type) where
  set : σ → Fin N → BitVec 32 → σ
  /-- The counter behind `k_cycle_get_32` goes on. -/
  pass : σ → BitVec 32 → σ
  higher : σ → (Fin N → ℤ) → Fin N → Fin N → Bool

def deadlines (N : Nat) (W : Type) : Deadlines N (DeadlineMem (QueueId W) N) where
  set m thread deadline := { m with prioDeadline := Function.update m.prioDeadline thread (m.now + deadline) }
  pass m cycles := { m with now := m.now + cycles }
  higher := isHigherWithDeadline

/-! ## The rest of the code -/

section code

variable (Q : Queues N W σ) (cfg : Config N) (D : Option (Deadlines N σ)) (s : Sched N W σ)

def schedUnlockNoReschedule : Sched N W σ :=
    s.setBase s.current fun b => { b with schedLocked := (b.schedLocked + 1) % 256 }

def moveThreadToEndOfPrioQ (thread : Fin N) : Option (Sched N W σ) := do
  let queues ← Q.remove s.prio s.queues .runq thread
  let queues ← Q.add s.prio queues .runq thread
  updateCache Q cfg ({ s with queues := queues }.setBase thread .markAsQueued) false

def isThreadTimeSlicing (ceiling : ℤ) : Option Bool :=
  if !s.isPreempt s.current || s.prio s.current < ceiling then some false
  else do
    match ← Q.best s.queues .runq with
    | some next => some (s.prio s.current = s.prio next)
    | none => some false

def handleTimeSlicing (ceiling : ℤ) : Option (Sched N W σ) := do
  if ← isThreadTimeSlicing Q s ceiling then moveThreadToEndOfPrioQ Q cfg s s.current else some s

def kThreadDeadlineSet (thread : Fin N) (deadline : BitVec 32) : Option (Sched N W σ) := do
  let d ← D
  let s := { s with queues := d.set s.queues thread deadline }
  if (s.base thread).queued then
    let queues ← Q.remove s.prio s.queues .runq thread
    let queues ← Q.add s.prio queues .runq thread
    some { s with queues := queues }
  else some s

end code

/-! ## The decision -/

/-- `should_preempt` refuses every thread but a metairq (sched.c:112). -/
def Held (cfg : Config N) (s : Sched N W σ) : Prop :=
    s.isThreadReady s.current = true ∧ s.isPreempt s.current = false ∧ s.current ≠ cfg.idle

/-- `cache` is the first of the run queue, or the thread that runs where nobody may preempt it. -/
structure Cached (Q : Queues N W σ) (cfg : Config N) (s : Sched N W σ) : Prop where
  next : nextUp Q cfg s = some s.cache ∨ Held cfg s ∧ s.cache = s.current
  held : Held cfg s → s.cache = s.current ∨ isMetairq cfg s s.cache = true

variable {u : Sched N W σ}

section cached

variable {Q : Queues N W σ} {cfg : Config N} {s t : Sched N W σ} {x : Fin N} {f : ThreadBase W → ThreadBase W}

theorem Cached.of_next (h : nextUp Q cfg s = some s.cache) (hc : s.cache = s.current) : Cached Q cfg s :=
    ⟨.inl h, fun _ => .inl hc⟩

theorem Cached.best (h : Cached Q cfg s) (hn : ¬ Held cfg s) : nextUp Q cfg s = some s.cache :=
    h.next.resolve_right fun hc => hn hc.1

/-- The decision is about the run queue, the two threads it names and whether `_current` is held. -/
theorem Cached.congr (h : Cached Q cfg s) (hnext : nextUp Q cfg t = nextUp Q cfg s)
    (hcache : t.cache = s.cache) (hcur : t.current = s.current)
    (hheld : Held cfg t ↔ Held cfg s) (hmeta : isMetairq cfg t s.cache = isMetairq cfg s s.cache) : Cached Q cfg t := by
  refine ⟨?_, fun ht => ?_⟩
  · rw [hnext, hcache, hcur, hheld]
    exact h.next
  · rw [hcache, hcur, hmeta]
    exact h.held (hheld.1 ht)

theorem held_congr (hcur : t.current = s.current) (hr : t.isThreadReady s.current = s.isThreadReady s.current)
    (hp : t.isPreempt s.current = s.isPreempt s.current) : Held cfg t ↔ Held cfg s := by
  rw [Held, hcur, hr, hp, Held]

theorem held_put {q : σ} {c : Fin N} (hx : s.current ≠ x) : Held cfg ((s.put q c).setBase x f) ↔ Held cfg s := by
  refine held_congr rfl ?_ ?_
  · rw [Sched.isThreadReady, setBase_ne hx]; rfl
  · rw [Sched.isPreempt, setBase_ne hx]; rfl

theorem updateCache_eq_some {ok : Bool} (h : updateCache Q cfg s ok = some t) : ∃ c, t = { s with cache := c } := by
  obtain ⟨th, -, heq⟩ := bind_eq_some_iff.1 h
  exact ⟨_, (some.inj heq).symm⟩

/-- **`update_cache(0)` (sched.c:190)** -/
theorem updateCache_false_cached (h : updateCache Q cfg s false = some t) : Cached Q cfg t := by
  obtain ⟨th, hth, heq⟩ := bind_eq_some_iff.1 h
  cases heq
  by_cases hpre : shouldPreempt cfg s th false = true
  · refine ⟨.inl ?_, fun hheld => .inr ?_⟩
    · simpa [hpre, nextUp] using hth
    · obtain ⟨hr, hp, hi⟩ : Held cfg s := hheld
      have hmeta : isMetairq cfg s th = true := by simpa [shouldPreempt, hr, hp, hi] using hpre
      show isMetairq cfg s (if shouldPreempt cfg s th false = true then th else s.current) = true
      rwa [if_pos hpre]
  · have hno : shouldPreempt cfg s th false = false := by simpa using hpre
    have hheld : Held cfg s := by
      simp only [shouldPreempt, Bool.false_eq_true, if_false, Bool.not_eq_true', Bool.or_eq_true] at hno
      grind [Held]
    exact ⟨.inr ⟨hheld, by simp [hno]⟩, fun _ => .inl (by simp [hno])⟩

/-- **`update_cache(1)`** -/
theorem updateCache_true_next (h : updateCache Q cfg s true = some t) : nextUp Q cfg t = some t.cache := by
  obtain ⟨th, hth, heq⟩ := bind_eq_some_iff.1 h
  cases heq
  simpa [shouldPreempt, nextUp] using hth

/-- On the way into what `cache` says, the decision stands. -/
theorem Cached.swap (h : Cached Q cfg s) : Cached Q cfg s.swap := by
  refine ⟨?_, fun _ => .inl rfl⟩
  rcases h.next with hn | ⟨hheld, hc⟩
  · exact .inl hn
  · refine .inr ⟨?_, rfl⟩
    rw [Held, Sched.swap, hc]
    exact hheld

theorem Cached.swap_of_next (h : nextUp Q cfg s = some s.cache) : Cached Q cfg s.swap := .of_next h rfl

/-! ## What a section does before it ends -/

/-- The decision stands, the thread still runs, and it is held if it was. -/
structure Undisturbed (Q : Queues N W σ) (cfg : Config N) (s t : Sched N W σ) : Prop where
  cached : Cached Q cfg t
  current : t.current = s.current
  held : Held cfg s → Held cfg t

/-- The decision stands, and a thread that was held is switched out at most for a metairq. -/
structure Dispatched (Q : Queues N W σ) (cfg : Config N) (s t : Sched N W σ) : Prop where
  cached : Cached Q cfg t
  stays : Held cfg s → t.current = s.current ∨ isMetairq cfg t t.current = true

theorem Undisturbed.refl (h : Cached Q cfg s) : Undisturbed Q cfg s s := ⟨h, rfl, id⟩

theorem Undisturbed.trans (h : Undisturbed Q cfg s t) (h' : Undisturbed Q cfg t u) : Undisturbed Q cfg s u :=
  ⟨h'.cached, h'.current.trans h.current, fun hs => h'.held (h.held hs)⟩

theorem Undisturbed.dispatched (h : Undisturbed Q cfg s t) : Dispatched Q cfg s t := ⟨h.cached, fun _ => .inl h.current⟩

theorem Undisturbed.swap (h : Undisturbed Q cfg s t) : Dispatched Q cfg s t.swap := by
  refine ⟨h.cached.swap, fun hs => ?_⟩
  rcases h.cached.held (h.held hs) with hc | hc
  · exact .inl (hc.trans h.current)
  · exact .inr hc

theorem Undisturbed.reschedule (h : Undisturbed Q cfg s t) : Dispatched Q cfg s t.reschedule := by
  unfold Sched.reschedule
  split
  · exact h.dispatched
  · exact h.swap

/-- Only the record of `x` is another one, and the run queue is as it was. -/
structure Touched (Q : Queues N W σ) (cfg : Config N) (x : Fin N) (s t : Sched N W σ) : Prop where
  base : ∀ y, y ≠ x → t.base y = s.base y
  prio : t.prio = s.prio
  cache : t.cache = s.cache
  current : t.current = s.current
  next : nextUp Q cfg t = nextUp Q cfg s

theorem Touched.setBase (f : ThreadBase W → ThreadBase W) : Touched Q cfg x s (s.setBase x f) :=
    ⟨fun _ hy => setBase_ne hy, rfl, rfl, rfl, rfl⟩

theorem Touched.trans (h : Touched Q cfg x s t) (h' : Touched Q cfg x t u) : Touched Q cfg x s u :=
  ⟨fun y hy => (h'.base y hy).trans (h.base y hy), h'.prio.trans h.prio, h'.cache.trans h.cache,
    h'.current.trans h.current, h'.next.trans h.next⟩

theorem Touched.metairq (h : Touched Q cfg x s t) (y : Fin N) : isMetairq cfg t y = isMetairq cfg s y := by
  rw [isMetairq, isMetairq, h.prio]

theorem Touched.held_iff (h : Touched Q cfg x s t) (hx : s.current ≠ x) : Held cfg t ↔ Held cfg s := by
  refine held_congr h.current ?_ ?_
  · rw [Sched.isThreadReady, Sched.isThreadReady, h.base _ hx]
  · rw [Sched.isPreempt, Sched.isPreempt, h.base _ hx, h.prio]

/-- A thread that runs is left alone. -/
theorem Touched.undisturbed_of_ne (h : Touched Q cfg x s t) (hx : s.current ≠ x) (hs : Cached Q cfg s) :
    Undisturbed Q cfg s t :=
  ⟨hs.congr h.next h.cache h.current (h.held_iff hx) (h.metairq _), h.current, (h.held_iff hx).2⟩

theorem Held.ne (h : Held cfg s) (hx : s.isThreadReady x = false) : s.current ≠ x := by
  rintro rfl
  have hr := h.1
  simp [hx] at hr

/-- A thread that is not ready is changed and is not ready after that. -/
theorem Touched.undisturbed (h : Touched Q cfg x s t) (hs : Cached Q cfg s) (hx : s.isThreadReady x = false)
    (hx' : t.isThreadReady x = false) :
    Undisturbed Q cfg s t := by
  by_cases hc : s.current = x
  · have hno : ¬ Held cfg s := fun hh => hh.ne hx hc
    have hno' : ¬ Held cfg t := fun hh => hh.ne hx' (h.current.trans hc)
    exact ⟨hs.congr h.next h.cache h.current (by simp [hno, hno']) (h.metairq _), h.current, fun hh => absurd hh hno⟩
  · exact h.undisturbed_of_ne hc hs

/-! ## The ready queue -/

/-- **`_add_thread_to_ready_q` (sched.c:225)** decides anew. -/
theorem addThreadToReadyQ_eq_some (h : addThreadToReadyQ Q cfg s x = some t) :
    ∃ q c, t = (s.put q c).setBase x .markAsQueued ∧ Cached Q cfg t := by
  obtain ⟨q, -, hup⟩ := bind_eq_some_iff.1 h
  obtain ⟨c, hc⟩ := updateCache_eq_some hup
  exact ⟨q, c, hc, updateCache_false_cached hup⟩

/-- **`_remove_thread_from_ready_q` (sched.c:244)** decides anew, and without regard to a thread that leaves. -/
theorem removeThreadFromReadyQ_eq_some (hq : (s.base x).queued = true) (h : removeThreadFromReadyQ Q cfg s x = some t) :
    ∃ q c, t = (s.put q c).setBase x .markAsNotQueued ∧ (x ≠ s.current → Cached Q cfg t) ∧
      (x = s.current → nextUp Q cfg t = some t.cache) := by
  rw [removeThreadFromReadyQ, if_pos hq] at h
  obtain ⟨q, -, hup⟩ := bind_eq_some_iff.1 h
  obtain ⟨c, hc⟩ := updateCache_eq_some hup
  refine ⟨q, c, hc, fun hx => ?_, fun hx => ?_⟩
  · rw [decide_eq_false hx] at hup
    exact updateCache_false_cached hup
  · rw [decide_eq_true hx] at hup
    exact updateCache_true_next hup

theorem requeue_eq_some {prio : Fin N → ℤ} (h : requeue Q cfg s x prio = some t) :
    ∃ q c, t = { s.put q c with prio := prio } ∧ nextUp Q cfg t = some t.cache := by
  obtain ⟨q1, -, h1⟩ := bind_eq_some_iff.1 h
  obtain ⟨q, -, hup⟩ := bind_eq_some_iff.1 h1
  obtain ⟨c, hc⟩ := updateCache_eq_some hup
  exact ⟨q, c, hc, updateCache_true_next hup⟩

/-- **`_ready_thread` (ksched.h:230)** of a thread that was not ready. -/
theorem readyThread_undisturbed (hs : Cached Q cfg s) (hx : s.isThreadReady x = false) (h : Touched Q cfg x s t)
    (hready : readyThread Q cfg t x = some u) : Undisturbed Q cfg s u := by
  unfold readyThread at hready
  split at hready
  · obtain ⟨q, c, rfl, hcached⟩ := addThreadToReadyQ_eq_some hready
    refine ⟨hcached, h.current, fun hheld => ?_⟩
    have hne : t.current ≠ x := h.current ▸ hheld.ne hx
    exact (held_put hne).2 ((h.held_iff (hheld.ne hx)).2 hheld)
  · obtain rfl := some.inj hready
    exact h.undisturbed hs hx (by simpa using ‹¬ t.isThreadReady x = true›)

end cached

end Zephyr
