import Mathlib.Data.Fintype.Option
import Zephyr.Kernel.Mutexes
/-!
# Runs of several mutexes

Each case of `MutexEffect` is one of the operations of nested priority inheritance on `MutexesState.abs`: a fast
lock and the hand-over are `Inheritance.Sound.acquire`, the outermost unlock is `release`, a thread that comes to
wait is `reprio` and `join`, and one that has timed out is `reprio`. The rest is who owns which mutex and who wants it.
-/
namespace Zephyr

open Ring Sched Function List Option

variable {N : Nat} {M V σ : Type} [DecidableEq M] [DecidableEq V] {Q : Queues N (M ⊕ V) σ} {H : Q.Lawful}
    {cfg : Config N} {ceiling : ℤ}
  {s : MutexesState N M V σ} {m m' : M} {op : MutexOp N (M ⊕ V)} {v : MutexState N (M ⊕ V) σ} {a y : Fin N}

structure NestInv (H : Q.Lawful) (cfg : Config N) (ceiling : ℤ) (s : MutexesState N M V σ) : Prop where
  sched : ∃ L, SchedInv H cfg s.sched L
  sane : ∀ m, MutexSane H cfg (s.view m)
  waiting : ∀ {m y}, s.sched.WaitsOn (.inl m) y → s.inside y = some m ∧ s.place y = .pended
  stack : ∀ {m a}, m ∈ s.stack a ↔ s.Owns m a
  handOver : ∀ {m y}, s.inside y = some m → s.place y = .toHandOver → (s.mutex m).owner = some y ∧
    (s.mutex m).lockCount = 0
  free : ∀ {m}, (s.mutex m).lockCount = 0 → (∃ y, s.inside y = some m ∧ s.place y = .toHandOver) ∨ ∀ y, ¬ s.Wants m y
  sound : Inheritance.Sound ceiling s.abs

/-- The owner is not lower than those that wait, and without mutexes it has its priority from before. -/
theorem NestInv.inherits (h : NestInv H cfg ceiling s) : s.Inherits ceiling where
  raised _ _ _ hown hy := h.sound.high (h.stack.2 hown) (.inl hy)
  restored _ hnone := h.sound.empty (eq_nil_iff_forall_not_mem.2 fun m hm => hnone m (h.stack.1 hm))

/-! ## Who stands where -/

omit [DecidableEq V] in
theorem MutexesState.view_place {p : Place} (h : (s.view m).place y = p) (hp : p ≠ .outside) :
    s.inside y = some m ∧ s.place y = p := by
  unfold MutexesState.view at h
  dsimp only at h
  split at h
  · exact ⟨by assumption, h⟩
  · exact absurd h.symm hp

/-- A thread wants what it wanted before, and the mutex that it has just come to wait for. -/
theorem MutexEffect.wants (heff : MutexEffect H cfg (.inl m) ceiling (s.view m) op v)
    (hy : (s.put Q m op v).Wants m' y) :
    s.Wants m' y ∨ y = s.sched.current ∧ m' = m ∧ (v.place s.sched.current).isToPend = true := by
  rcases hy with hy | ⟨hin, hp⟩
  · left
    rcases heff.onSched.2.2 _ y hy with hold | ⟨-, hm, hplace, -⟩
    · exact .inl hold
    · obtain rfl : m' = m := Sum.inl.inj hm
      have hout : (s.view m').place y ≠ .outside := fun he => by simp [he, Place.isToPend] at hplace
      obtain ⟨hin, hp⟩ := MutexesState.view_place rfl hout
      exact .inr ⟨hin, by rw [hp]; exact hplace⟩
  · by_cases hyc : y = s.sched.current
    · subst hyc
      simp only [MutexesState.put, update_self] at hin hp
      exact .inr ⟨rfl, (some.inj hin).symm, hp⟩
    · simp only [MutexesState.put, update_of_ne hyc] at hin hp
      exact .inl (.inr ⟨hin, hp⟩)

/-- A step after which the thread that runs does not want the mutex makes nobody want one. -/
theorem MutexEffect.wanted (heff : MutexEffect H cfg (.inl m) ceiling (s.view m) op v)
    (hp : (v.place s.sched.current).isToPend = false) (hy : (s.put Q m op v).Wants m' y) : s.Wants m' y :=
  (heff.wants hy).resolve_right fun hnew => Bool.eq_false_iff.1 hp hnew.2.2

section put

omit [DecidableEq V]

/-- Only the thread that runs moves. -/
theorem MutexesState.put_of_ne (hyc : y ≠ s.sched.current) :
    (s.put Q m op v).inside y = s.inside y ∧ (s.put Q m op v).place y = s.place y :=
  ⟨update_of_ne hyc _ _, update_of_ne hyc _ _⟩

theorem MutexesState.put_current :
    (s.put Q m op v).inside s.sched.current = some m ∧
    (s.put Q m op v).place s.sched.current = v.place s.sched.current :=
  ⟨update_self .., update_self ..⟩

theorem MutexesState.put_mutex_of_ne (hm : m' ≠ m) : (s.put Q m op v).mutex m' = s.mutex m' := update_of_ne hm _ _

@[simp] theorem MutexesState.put_mutex : (s.put Q m op v).mutex m = v.mutex := update_self ..

/-- The stacks change in `m` only. -/
theorem MutexesState.mem_stackAfter_of_ne (hm : m' ≠ m) : m' ∈ s.stackAfter Q m op a ↔ m' ∈ s.stack a := by
  unfold MutexesState.stackAfter
  cases op.acquirer Q (.inl m) (s.view m) with
  | some t =>
    by_cases hat : a = t
    · subst hat
      simp [hm]
    · simp [hat]
  | none =>
    by_cases hac : a = s.sched.current
    · subst hac
      cases op.releases (s.view m) <;> simp [mem_erase_of_ne hm]
    · cases op.releases (s.view m) <;> simp [hac]

end put

namespace NestInv

theorem current_not_wants (h : NestInv H cfg ceiling s) (hn : s.sched.nested = 0)
    (hplace : (s.place s.sched.current).isToPend = false) :
    ¬ s.Wants m s.sched.current := by
  obtain ⟨L, hL⟩ := h.sched
  rintro (hw | ⟨-, hp⟩)
  · exact hL.current_not_waits hn hw
  · simp [hplace] at hp

omit [DecidableEq V] in
theorem abs_put : (s.put Q m op v).abs =
    { prio := v.sched.prio
      own := s.beforeAfter Q m op
      stack := s.stackAfter Q m op
      orig := update s.abs.orig m v.mutex.ownerOrigPrio
      wants := (s.put Q m op v).Wants } := by
  have horig : (fun m' => ((s.put Q m op v).mutex m').ownerOrigPrio) = update s.abs.orig m v.mutex.ownerOrigPrio := by
    funext m'
    by_cases hm : m' = m
    · subst hm
      simp
    · rw [s.put_mutex_of_ne hm, update_of_ne hm]
      rfl
  rw [MutexesState.abs, horig]
  rfl

omit [DecidableEq V] in
/-- The saved priorities stay. -/
theorem abs_put_orig (horig : v.mutex.ownerOrigPrio = (s.mutex m).ownerOrigPrio) : (s.put Q m op v).abs =
    { s.abs with
      prio := v.sched.prio, own := s.beforeAfter Q m op, stack := s.stackAfter Q m op, wants := (s.put Q m op v).Wants } := by
  have hself : update s.abs.orig m (s.mutex m).ownerOrigPrio = s.abs.orig := update_eq_self m s.abs.orig
  rw [abs_put, horig, hself]

section

variable (h : NestInv H cfg ceiling s) (heff : MutexEffect H cfg (.inl m) ceiling (s.view m) op v)

include h heff

theorem put_sane (hi : s.sched.current ≠ cfg.idle) (m' : M) : MutexSane H cfg ((s.put Q m op v).view m') := by
  obtain ⟨-, ⟨-, hown⟩, horig⟩ := heff.sane (h.sane m) hi
  have hplace : ((s.put Q m op v).view m').place cfg.idle = .outside := by
    have := (h.sane m').idle.1
    unfold MutexesState.view at this ⊢
    dsimp only at this ⊢
    rwa [(s.put_of_ne (Ne.symm hi)).1, (s.put_of_ne (Ne.symm hi)).2]
  by_cases hm : m' = m
  · subst hm
    refine ⟨heff.inv, ⟨hplace, ?_⟩, ?_⟩
    · simpa [MutexesState.view] using hown
    · simpa [MutexesState.view] using horig
  · refine ⟨heff.inv, ⟨hplace, ?_⟩, ?_⟩
    · simpa [MutexesState.view, MutexesState.put_mutex_of_ne hm] using (h.sane m').idle.2
    · simpa [MutexesState.view, MutexesState.put_mutex_of_ne hm] using (h.sane m').orig

theorem put_waiting (hn : s.sched.nested = 0) (hy : (s.put Q m op v).sched.WaitsOn (.inl m') y) :
    (s.put Q m op v).inside y = some m' ∧ (s.put Q m op v).place y = .pended := by
  obtain ⟨L, hL⟩ := h.sched
  rcases heff.onSched.2.2 _ y hy with hold | ⟨rfl, hm, -, hplace, -⟩
  · have hyc : y ≠ s.sched.current := by
      rintro rfl
      exact hL.current_not_waits hn hold
    rw [(s.put_of_ne hyc).1, (s.put_of_ne hyc).2]
    exact h.waiting hold
  · obtain rfl : m' = m := Sum.inl.inj hm
    exact ⟨s.put_current.1, s.put_current.2.trans hplace⟩

/-- Nothing happens to the priorities. -/
theorem sound_same (hprio : v.sched.prio = s.sched.prio) (hstack : s.stackAfter Q m op = s.stack)
    (hbefore : s.beforeAfter Q m op = s.before)
    (horig : v.mutex.ownerOrigPrio = (s.mutex m).ownerOrigPrio) (hwant : (v.place s.sched.current).isToPend = false) :
    Inheritance.Sound ceiling (s.put Q m op v).abs := by
  rw [abs_put_orig horig, hprio, hstack, hbefore]
  exact h.sound.mono fun m' y hy => heff.wanted hwant hy

section

variable (hn : s.sched.nested = 0) (hi : s.sched.current ≠ cfg.idle)
  (hcur : s.place s.sched.current = .outside ∨ s.inside s.sched.current = some m)

include hn hi hcur

/-- A step on `m` leaves the others alone. What is left is `m` itself and the priorities. -/
theorem put_of (hstack : ∀ a, m ∈ s.stackAfter Q m op a ↔ v.mutex.owner = some a ∧ 0 < v.mutex.lockCount)
    (hover : v.place s.sched.current = .toHandOver → v.mutex.owner = some s.sched.current ∧ v.mutex.lockCount = 0)
    (hothers : ∀ y ≠ s.sched.current, s.inside y = some m → s.place y = .toHandOver → v.mutex.owner = some y ∧
      v.mutex.lockCount = 0) (hfree : v.mutex.lockCount = 0 →
      (∃ y, (s.put Q m op v).inside y = some m ∧ (s.put Q m op v).place y = .toHandOver) ∨
      ∀ y, ¬ (s.put Q m op v).Wants m y)
    (hsound : Inheritance.Sound ceiling (s.put Q m op v).abs) : NestInv H cfg ceiling (s.put Q m op v) where
  sched := heff.inv
  sane := h.put_sane heff hi
  waiting hy := h.put_waiting heff hn hy
  stack {m' a} := by
    by_cases hm : m' = m
    · subst hm
      rw [MutexesState.Owns, s.put_mutex]
      exact hstack a
    · rw [MutexesState.Owns, s.put_mutex_of_ne hm]
      exact (s.mem_stackAfter_of_ne hm).trans h.stack
  handOver {m' y} hin hp := by
    by_cases hyc : y = s.sched.current
    · subst hyc
      rw [s.put_current.1] at hin
      rw [s.put_current.2] at hp
      obtain rfl := some.inj hin
      rw [s.put_mutex]
      exact hover hp
    · rw [(s.put_of_ne hyc).1] at hin
      rw [(s.put_of_ne hyc).2] at hp
      by_cases hm : m' = m
      · subst hm
        rw [s.put_mutex]
        exact hothers y hyc hin hp
      · rw [s.put_mutex_of_ne hm]
        exact h.handOver hin hp
  free {m'} hc := by
    by_cases hm : m' = m
    · subst hm
      rw [s.put_mutex] at hc
      exact hfree hc
    · rw [s.put_mutex_of_ne hm] at hc
      rcases h.free hc with ⟨y, hin, hp⟩ | hnone
      · left
        have hyc : y ≠ s.sched.current := by
          rintro rfl
          rcases hcur with hout | hself
          · simp [hout] at hp
          · rw [hself] at hin
            exact hm (some.inj hin).symm
        exact ⟨y, (s.put_of_ne hyc).1.trans hin, (s.put_of_ne hyc).2.trans hp⟩
      · right
        intro y hy
        rcases heff.wants hy with hold | ⟨-, e, -⟩
        · exact hnone y hold
        · exact hm e
  sound := hsound

/-- A step that leaves the mutex as it is. -/
theorem put_sameMutex (hmutex : v.mutex = s.mutex m) (hstack : s.stackAfter Q m op = s.stack)
    (hplace : s.place s.sched.current ≠ .toHandOver ∧ v.place s.sched.current ≠ .toHandOver)
    (hwant : (s.mutex m).lockCount = 0 → (v.place s.sched.current).isToPend = false)
    (hsound : Inheritance.Sound ceiling (s.put Q m op v).abs) : NestInv H cfg ceiling (s.put Q m op v) := by
  refine h.put_of heff hn hi hcur (fun a => ?_) (fun hp => absurd hp hplace.2) (fun y _ hin hp => ?_)
    (fun hc => ?_) hsound
  · rw [hstack, hmutex]
    exact h.stack
  · rw [hmutex]
    exact h.handOver hin hp
  · rw [hmutex] at hc
    rcases h.free hc with ⟨y, hin, hp⟩ | hnone
    · left
      have hyc : y ≠ s.sched.current := by
        rintro rfl
        exact hplace.1 hp
      exact ⟨y, (s.put_of_ne hyc).1.trans hin, (s.put_of_ne hyc).2.trans hp⟩
    · exact .inr fun y hy => hnone y (heff.wanted (hwant hc) hy)

theorem put_quiet (hmutex : v.mutex = s.mutex m) (hprio : v.sched.prio = s.sched.prio)
    (hstack : s.stackAfter Q m op = s.stack) (hbefore : s.beforeAfter Q m op = s.before)
    (hplace : s.place s.sched.current ≠ .toHandOver ∧ v.place s.sched.current ≠ .toHandOver)
    (hwant : (v.place s.sched.current).isToPend = false) : NestInv H cfg ceiling (s.put Q m op v) :=
  h.put_sameMutex heff hn hi hcur hmutex hstack hplace (fun _ => hwant)
  (h.sound_same heff hprio hstack hbefore (by rw [hmutex]) hwant)

end

end

/-- A thread that comes to wait never lowers the owner, and not to below itself. -/
theorem boostedPrio_le {W : Type} (ceiling : ℤ) (s : MutexState N W σ) (owner : Fin N) :
    boostedPrio ceiling s owner ≤ s.sched.prio owner ∧
    boostedPrio ceiling s owner ≤ max (s.sched.prio s.sched.current) ceiling := by
  simp only [boostedPrio, newPrioForInheritance_eq]
  split <;> constructor <;> omega

section

variable (h : NestInv H cfg ceiling s)

include h

/-- What a thread that has timed out writes is high enough for those that want any mutex of the owner. -/
theorem timedOutPrio_le {o : Fin N} {waiter : Option (Fin N)} (hmem : m ∈ s.stack o)
    (hbest : Q.best s.sched.queues (.waitq (.inl m)) = some waiter) (hset : s.Settled Q m)
    (hlater : ∀ m' ∈ Inheritance.later m (s.stack o), ∀ y, s.Wants m' y →
      timedOutPrio ceiling (s.view m) waiter ≤ max (s.sched.prio y) ceiling)
    (hm' : m' ∈ s.stack o) (hy : s.Wants m' y) :
    timedOutPrio ceiling (s.view m) waiter ≤ max (s.sched.prio y) ceiling := by
  obtain ⟨-, hempty⟩ := (h.sane m).best_waits hbest
  by_cases hm : m' = m
  · subst hm
    rcases hy with hw | ⟨hin, hp⟩
    · cases waiter with
      | none => exact absurd hw (hempty rfl y)
      | some x =>
        have hfirst := hset.2 y x hw hbest
        have hle : timedOutPrio ceiling (s.view m') (some x) ≤ max (s.sched.prio x) ceiling := by
          simp only [timedOutPrio, newPrioForInheritance_eq]
          exact max_le_max_right _ (min_le_left _ _)
        exact hle.trans (max_le_max_right _ hfirst)
    · simp [hset.1 y hin] at hp
  · rcases Inheritance.later_or_later hmem hm' hm with hafter | hbefore
    · exact hlater m' hafter y hy
    · -- `m` was acquired after `m'`, with a saved priority that is high enough
      have horig : (s.mutex m).ownerOrigPrio ≤ max (s.sched.prio y) ceiling := h.sound.later hm' hbefore hy
      cases waiter with
      | none => exact horig
      | some x =>
        simp only [timedOutPrio, newPrioForInheritance_eq]
        exact max_le ((min_le_right _ _).trans horig) (le_max_right _ _)

variable (hn : s.sched.nested = 0) (hi : s.sched.current ≠ cfg.idle)

include hn hi

/-- The mutex goes to the thread `t`. -/
theorem put_acquire (heff : MutexEffect H cfg (.inl m) ceiling (s.view m) op v)
    (hcur : s.place s.sched.current = .outside ∨ s.inside s.sched.current = some m) {t : Fin N}
    (hacq : op.acquirer Q (.inl m) (s.view m) = some t) (hc : (s.mutex m).lockCount = 0)
    (hmutex : v.mutex = ⟨some t, 1, s.sched.prio t⟩)
    (hprio : v.sched.prio = s.sched.prio) (hplace : v.place s.sched.current = .outside)
    (hnone : ∀ y, s.inside y = some m → s.place y = .toHandOver → y = s.sched.current)
    (hhigh : ∀ y, (s.put Q m op v).Wants m y → s.sched.prio t ≤ max (s.sched.prio y) ceiling) :
    NestInv H cfg ceiling (s.put Q m op v) := by
  have hnew : ∀ a, m ∉ s.stack a := fun a hm => by
    have := (h.stack.1 hm).2
    omega
  have hstack : s.stackAfter Q m op = update s.stack t (m :: s.stack t) := by simp [MutexesState.stackAfter, hacq]
  refine h.put_of heff hn hi hcur (fun a => ?_) (by simp [hplace])
    (fun y hyc hin hp => absurd (hnone y hin hp) hyc) (fun hz => ?_) ?_
  · rw [hstack, hmutex]
    by_cases hat : a = t
    · subst hat
      simp
    · simp [hat, hnew a, Ne.symm hat]
  · simp [hmutex] at hz
  · rw [abs_put, hstack, hmutex, hprio, MutexesState.beforeAfter, hacq]
    exact (h.sound.mono fun m' y hy => heff.wanted (by rw [hplace]; rfl) hy).acquire hnew hhigh

/-- **`k_mutex_lock` (mutex.c:121)** up to where it waits. -/
theorem put_lock {timeout : ℤ} (heff : MutexEffect H cfg (.inl m) ceiling (s.view m) (.lock timeout) v)
    (hout : s.place s.sched.current = .outside) (hfree : (s.view m).TakesFree (.lock timeout))
    (hboost : (s.mutex m).lockCount ≠ 0 → timeout ≠ 0 → s.BoostsAll ceiling m) :
    NestInv H cfg ceiling (s.put Q m (.lock timeout) v) := by
  have heff' := heff
  -- a mutex with a count goes to nobody
  have hacq : (s.mutex m).lockCount ≠ 0 → s.stackAfter Q m (.lock timeout) = s.stack ∧
    s.beforeAfter Q m (.lock timeout) = s.before := fun hc => by
    simp [MutexesState.stackAfter, MutexesState.beforeAfter, MutexOp.acquirer, MutexOp.releases, MutexesState.view, hc]
  have hview : (s.view m).place s.sched.current = .outside := by simp [MutexesState.view, hout]
  cases heff with
  | take place fast quiet prio =>
    by_cases hc : (s.mutex m).lockCount = 0
    · -- nobody hands it over, and so nobody wants it
      have hover : ∀ y, s.inside y = some m → s.place y ≠ .toHandOver := fun y hin hp =>
        hfree.1 hc y (by simp [MutexesState.view, hin, hp])
      have hnone : ∀ y, ¬ s.Wants m y := (h.free hc).resolve_left fun ⟨y, hin, hp⟩ => hover y hin hp
      refine h.put_acquire hn hi heff' (.inl hout) (t := s.sched.current)
        (by simp [MutexOp.acquirer, MutexesState.view, hc]) hc
        (by simp [MutexesState.view, hc]) prio hview (fun y hin hp => absurd hp (hover y hin)) (fun y hy => ?_)
      exact absurd (heff'.wanted (by simp [hview, Place.isToPend]) hy) (hnone y)
    · have hown : (s.mutex m).owner = some s.sched.current := fast.resolve_left hc
      have hlt : (s.mutex m).lockCount + 1 < 2 ^ 32 := hfree.2 hown
      have hmod : ((s.mutex m).lockCount + 1) % 2 ^ 32 = (s.mutex m).lockCount + 1 := Nat.mod_eq_of_lt hlt
      obtain ⟨hstack, hbefore⟩ := hacq hc
      refine h.put_of heff' hn hi (.inl hout) (fun a => ?_) (by simp [hview])
        (fun y _ hin hp => absurd (h.handOver hin hp).2 hc) (fun hz => ?_) ?_
      · rw [hstack]
        refine h.stack.trans ?_
        simp only [MutexesState.Owns, MutexesState.view, hown, hmod]
        exact and_congr_right fun _ => by omega
      · simp only [MutexesState.view, hmod] at hz
        omega
      · exact h.sound_same heff' prio hstack hbefore (by simp [MutexesState.view, hc]) (by simp [hview, Place.isToPend])
  | busy count quiet prio =>
    obtain ⟨hstack, hbefore⟩ := hacq count
    exact h.put_quiet heff' hn hi (.inl hout) rfl prio hstack hbefore ⟨by simp [hout], by simp [hview]⟩
      (by simp [hview, Place.isToPend])
  | @boost _ sched owner place count own other quiet prio wait =>
    obtain ⟨hstack, hbefore⟩ := hacq count
    have hcur : (s.view m).sched.current = s.sched.current := rfl
    refine h.put_sameMutex heff' hn hi (.inl hout) rfl hstack ⟨by simp [hout], by simp [hcur]⟩
      (fun hc => absurd hc count) ?_
    rw [abs_put_orig rfl, prio, hstack, hbefore]
    -- the owner is raised first, and then there is one more that wants the mutex
    obtain ⟨hlater, hraise⟩ := hboost count wait owner own other
    have hmem : m ∈ s.stack owner := h.stack.2 ⟨own, pos_of_ne_zero count⟩
    obtain ⟨hle, hceil⟩ := boostedPrio_le ceiling (s.view m) owner
    have hup := h.sound.reprio (.inl (ne_nil_of_mem hmem)) (fun m1 y hm1 hy _ => hle.trans (h.sound.high hm1 hy)) hraise
    refine hup.join (m := m) (y := s.sched.current) (fun m' y hy => (heff'.wants hy).imp_right fun hnew =>
      ⟨hnew.2.1, hnew.1⟩) fun a ha => ?_
    obtain rfl : a = owner := h.sound.excl ha hmem
    have hself : update s.sched.prio a (boostedPrio ceiling (s.view m) a) s.sched.current =
      s.sched.prio s.sched.current :=
      update_of_ne (Ne.symm other) _ _
    refine ⟨?_, fun m' hm' => (hlater m' hm').trans_eq (by rw [← hself]; rfl)⟩
    show update s.sched.prio a (boostedPrio ceiling (s.view m) a) a ≤
      max (update s.sched.prio a _ s.sched.current) ceiling
    rw [update_self, hself]
    exact hceil

/-- **`k_mutex_unlock` (mutex.c:212)** up to where it hands the mutex over. -/
theorem put_unlock (heff : MutexEffect H cfg (.inl m) ceiling (s.view m) .unlock v)
    (hout : s.place s.sched.current = .outside)
    (hpos : 0 < (s.mutex m).lockCount) (hlast : (s.mutex m).lockCount - 1 = 0 →
      (s.stack s.sched.current).head? = some m) : NestInv H cfg ceiling (s.put Q m .unlock v) := by
  have heff' := heff
  have hbefore : s.beforeAfter Q m .unlock = s.before := by simp [MutexesState.beforeAfter, MutexOp.acquirer]
  have hview : (s.view m).place s.sched.current = .outside := by simp [MutexesState.view, hout]
  -- nobody else hands over a mutex that is owned
  have hnone : ∀ y, s.inside y = some m → s.place y ≠ .toHandOver := fun y hin hp => hpos.ne' (h.handOver hin hp).2
  cases heff with
  | drop place own count quiet prio =>
    have hc : (s.mutex m).lockCount - 1 ≠ 0 := count
    have hstack : s.stackAfter Q m .unlock = s.stack := by
      simp [MutexesState.stackAfter, MutexOp.acquirer, MutexOp.releases, MutexesState.view, hc]
    refine h.put_of heff' hn hi (.inl hout) (fun a => ?_) (by simp [hview])
      (fun y _ hin hp => absurd hp (hnone y hin)) (fun hz => absurd hz count) ?_
    · rw [hstack]
      refine h.stack.trans ?_
      simp only [MutexesState.Owns, MutexesState.view]
      exact and_congr_right fun _ => by omega
    · exact h.sound_same heff' prio hstack hbefore rfl (by simp [hview, Place.isToPend])
  | @release sched place own count quiet prio =>
    have hc : (s.mutex m).lockCount - 1 = 0 := count
    have hown : (s.mutex m).owner = some s.sched.current := own
    have hcur : (s.view m).sched.current = s.sched.current := rfl
    obtain ⟨l, hl⟩ : ∃ l, s.stack s.sched.current = m :: l := List.head?_eq_some_iff.1 (hlast hc)
    have hnd := h.sound.nodup s.sched.current
    have hstack : s.stackAfter Q m .unlock = update s.stack s.sched.current l := by
      simp [MutexesState.stackAfter, MutexOp.acquirer, MutexOp.releases, MutexesState.view, hc, hl]
    refine h.put_of heff' hn hi (.inl hout) (fun a => ?_) (fun _ => ⟨own, count⟩)
      (fun y _ hin hp => absurd hp (hnone y hin))
      (fun _ => .inl ⟨s.sched.current, s.put_current.1, ?_⟩) ?_
    · rw [hstack]
      refine iff_of_false (fun hm => ?_) (by simp [count])
      by_cases hac : a = s.sched.current
      · subst hac
        rw [update_self] at hm
        have hnd' : (s.stack s.sched.current).Nodup := hnd
        rw [hl, nodup_cons] at hnd'
        exact hnd'.1 hm
      · rw [update_of_ne hac] at hm
        obtain ⟨ho, -⟩ := h.stack.1 hm
        rw [hown] at ho
        exact hac (some.inj ho).symm
    · rw [s.put_current.2]
      simp [hcur]
    · have hw : ∀ m' y, MutexesState.Wants (s.put Q m .unlock _) m' y → s.Wants m' y :=
        fun m' y => heff'.wanted (by simp [hcur, Place.isToPend])
      rw [abs_put_orig rfl, hstack, hbefore, prio]
      exact (h.sound.mono hw).release hl fun m' hw' => h.current_not_wants hn (by simp [hout, Place.isToPend])
        (hw m' _ hw')

/-- **A thread goes on in the code of the mutex.** -/
theorem put_goOn (heff : MutexEffect H cfg (.inl m) ceiling (s.view m) .goOn v)
    (hin : s.inside s.sched.current = some m) (hover : s.place s.sched.current = .toHandOver → s.Settled Q m)
    (htimed : s.place s.sched.current = .pended → s.got s.sched.current = false → s.Settled Q m ∧
      s.SparesOthers Q ceiling m) :
    NestInv H cfg ceiling (s.put Q m .goOn v) := by
  have heff' := heff
  have hcur : (s.view m).sched.current = s.sched.current := rfl
  have hview : (s.view m).place s.sched.current = s.place s.sched.current := by simp [MutexesState.view, hin]
  have hacq : s.place s.sched.current ≠ .toHandOver → s.stackAfter Q m .goOn = s.stack ∧
    s.beforeAfter Q m .goOn = s.before := fun hp => by
    simp [MutexesState.stackAfter, MutexesState.beforeAfter, MutexOp.acquirer, MutexOp.releases, hcur, hview, hp]
  cases heff with
  | pend place _ _ _ prio | granted place _ _ prio | giveUp place _ _ prio =>
    have hplace := hview.symm.trans place
    obtain ⟨hstack, hbefore⟩ := hacq (by simp [hplace])
    exact h.put_quiet heff' hn hi (.inr hin) rfl prio hstack hbefore ⟨by simp [hplace], by simp [hcur]⟩
      (by simp [hcur, Place.isToPend])
  | @timedOut sched owner waiter place got own best quiet same prio =>
    have hplace := hview.symm.trans place
    obtain ⟨hstack, hbefore⟩ := hacq (by simp [hplace])
    obtain ⟨hset, hspare⟩ := htimed hplace got
    obtain ⟨hidle, hlater, hraise⟩ := hspare owner waiter own best
    refine h.put_sameMutex heff' hn hi (.inr hin) rfl hstack ⟨by simp [hplace], by simp [hcur]⟩
      (fun _ => by simp [hcur, Place.isToPend]) ?_
    rw [abs_put_orig rfl, prio, hstack, hbefore]
    have hup : Inheritance.Sound ceiling
        { s.abs with prio := update s.abs.prio owner (timedOutPrio ceiling (s.view m) waiter) } := by
      by_cases hc : (s.mutex m).lockCount = 0
      · have hself : update s.abs.prio owner (timedOutPrio ceiling (s.view m) waiter) = s.abs.prio := by
          rw [hidle hc]
          exact update_eq_self owner s.abs.prio
        rw [hself]
        exact h.sound
      · have hmem : m ∈ s.stack owner := h.stack.2 ⟨own, pos_of_ne_zero hc⟩
        exact h.sound.reprio (.inl (ne_nil_of_mem hmem))
          (fun m' y hm' hy _ => h.timedOutPrio_le hmem best hset hlater hm' hy) hraise
    exact hup.mono fun m' y => heff'.wanted (by simp [hcur, Place.isToPend])
  | clear place none quiet prio =>
    have hplace := hview.symm.trans place
    obtain ⟨hown, hc⟩ := h.handOver hin hplace
    have hset := hover hplace
    -- `_unpend_first_thread` has found nobody
    have hbest : (Q.best s.sched.queues (.waitq (.inl m))).join = .none := by
      cases hb : Q.best s.sched.queues (.waitq (.inl m)) with
      | none => rfl
      | some waiter =>
        cases waiter with
        | none => rfl
        | some x => exact absurd (((h.sane m).best_waits hb).1 x rfl) (none x)
    have hacq' : MutexOp.acquirer Q (.inl m) (s.view m) .goOn = .none := by
      simp only [MutexOp.acquirer, place, if_true]
      exact hbest
    have hstack : s.stackAfter Q m .goOn = s.stack := by simp [MutexesState.stackAfter, hacq', MutexOp.releases]
    have hbefore : s.beforeAfter Q m .goOn = s.before := by simp [MutexesState.beforeAfter, hacq']
    refine h.put_of heff' hn hi (.inr hin) (fun a => ?_) (by simp [hcur]) (fun y hyc hy hp => ?_)
      (fun _ => .inr fun y hy => ?_) ?_
    · rw [hstack]
      refine iff_of_false (fun hm => ?_) (by simp)
      have := (h.stack.1 hm).2
      omega
    · rw [(h.handOver hy hp).1] at hown
      exact absurd (some.inj hown) hyc
    · rcases heff'.wanted (by simp [hcur, Place.isToPend]) hy with hw | ⟨hy', hp⟩
      · exact none y hw
      · simp [hset.1 y hy'] at hp
    · exact h.sound_same heff' prio hstack hbefore rfl (by simp [hcur, Place.isToPend])
  | @pass sched newOwner place best waited quiet left prio =>
    have hplace := hview.symm.trans place
    obtain ⟨hown, hc⟩ := h.handOver hin hplace
    have hset := hover hplace
    have hbest : Q.best s.sched.queues (.waitq (.inl m)) = some (some newOwner) := best
    refine h.put_acquire hn hi heff' (.inr hin) (t := newOwner)
      (by simp [MutexOp.acquirer, place, best]) hc ?_ prio (by simp [hcur]) (fun y hy hp => ?_)
      (fun y hy => ?_)
    · simp [MutexesState.view, hc]
    · rw [(h.handOver hy hp).1] at hown
      exact some.inj hown
    · rcases heff'.wanted (by simp [hcur, Place.isToPend]) hy with hw | ⟨hy', hp⟩
      · exact (hset.2 y newOwner hw hbest).trans (le_max_left _ _)
      · simp [hset.1 y hy'] at hp

end

end NestInv

/-! ## Runs -/

omit [DecidableEq M] [DecidableEq V] in
/-- Of the operations of the scheduler only `k_thread_priority_set` changes a priority. -/
theorem exec_prio {W : Type} [DecidableEq W] {Q : Queues N W σ} {s t : Sched N W σ} {op : SchedOp N W}
    (hexec : op.exec Q cfg s = some t) :
    t.prio = op.priorities s.prio := by
  have hplain : op.Plain → t.prio = s.prio := fun hp => samePrio_steady.exec hp t hexec
  cases op with
  | prioritySet thread prio => exact samePrio_steady.threadPrioritySet t hexec
  | lock =>
    cases hexec
    rfl
  | unlock => exact kSchedUnlock_prio hexec
  | pendCurrent v forever => exact samePrio_steady.pendCurrentThread rfl (fun _ => rfl) t hexec
  | pendDummy thread v forever => exact samePrio_steady.pend rfl (fun _ => rfl) t hexec
  | _ => exact hplain trivial

/-- What a step must meet for the queues to take all new priorities. -/
def MutexesState.Rekeys (H : Q.Lawful) (cfg : Config N) (s : MutexesState N M V σ) : MutexesOp N M V → Prop
  | .sched op => ∀ L, SchedInv H cfg s.sched L → op.Fine H s.sched L
  | .lock m _ => RekeysOwner H cfg (s.view m)
  | .unlock _ => True
  | .goOn => ∀ m, s.inside s.sched.current = some m → RekeysOwner H cfg (s.view m)

theorem NestInv.sched_exec (h : NestInv H cfg ceiling s) {op : SchedOp N (M ⊕ V)}
    (hlegal : s.Legal H cfg (.sched op)) (hord : s.Ordered (.sched op))
    (hfine : ∀ L, SchedInv H cfg s.sched L → op.Fine H s.sched L) {sched : Sched N (M ⊕ V) σ}
    (hexec : op.exec Q cfg s.sched = some sched) :
    NestInv H cfg ceiling { s with sched := sched, before := op.priorities s.before } := by
  obtain ⟨L, hL⟩ := h.sched
  obtain ⟨s2, L2, hs2, hinv, -⟩ := exec_keeps hL hlegal.1 (hfine L hL)
  obtain rfl : s2 = sched := by simpa [hs2] using hexec
  have hoff : ∀ {m y}, s2.WaitsOn (.inl m) y → s.sched.WaitsOn (.inl m) y :=
    fun {m y} => exec_staysOff (hlegal.2.2 m).1 s2 hexec
  have hwants : ∀ m y, MutexesState.Wants { s with sched := s2, before := op.priorities s.before } m y →
    s.Wants m y := fun m y => Or.imp_left hoff
  refine ⟨⟨L2, hinv⟩, fun m => ⟨⟨L2, hinv⟩, (h.sane m).idle, (h.sane m).orig⟩, fun hy => h.waiting (hoff hy),
    h.stack, h.handOver, fun hc => (h.free hc).imp_right fun hnone y hy => hnone y (hwants _ y hy), ?_⟩
  have habs : MutexesState.abs { s with sched := s2, before := op.priorities s.before } = { s.abs with
        prio := op.priorities s.abs.prio
        own := op.priorities s.abs.own
        wants := MutexesState.Wants { s with sched := s2, before := op.priorities s.before } } := by
    simp only [MutexesState.abs, exec_prio hexec]
  rw [habs]
  cases op with
  | prioritySet x k => exact (h.sound.mono hwants).setOwn hord.1 fun m hw => hord.2 m (hwants m x hw)
  | _ => exact h.sound.mono hwants

variable {op : MutexesOp N M V}

/-- **One step.** -/
theorem NestInv.exec (hceil : H.Valid ceiling) (h : NestInv H cfg ceiling s) (hlegal : s.Legal H cfg op)
    (hord : s.Ordered op) (hnest : s.Nests Q ceiling op) (hrekey : s.Rekeys H cfg op) {s' : MutexesState N M V σ}
    (hs : op.exec Q cfg ceiling s = some s') :
    NestInv H cfg ceiling s' := by
  cases op with
  | sched op =>
    obtain ⟨sched, hexec, rfl⟩ := map_eq_some_iff.1 hs
    exact h.sched_exec hlegal hord hrekey hexec
  | lock m timeout =>
    obtain ⟨v, hexec, rfl⟩ := map_eq_some_iff.1 hs
    have heff := (h.sane m).effect hceil (fun o => by simp) hlegal.1 hrekey hexec
    exact h.put_lock hlegal.1.1 hlegal.1.2.1 heff hlegal.2 hnest.1 hnest.2
  | unlock m =>
    obtain ⟨v, hexec, rfl⟩ := map_eq_some_iff.1 hs
    have heff := (h.sane m).effect hceil (fun o => by simp) hlegal.1 hrekey hexec
    exact h.put_unlock hlegal.1.1 hlegal.1.2.1 heff hlegal.2 hlegal.1.2.2.2.1 hord
  | goOn =>
    simp only [MutexesOp.exec] at hs
    cases hin : s.inside s.sched.current with
    | none => simp [hin] at hs
    | some m =>
      rw [hin] at hs
      obtain ⟨v, hexec, rfl⟩ := map_eq_some_iff.1 hs
      have hop := hlegal m hin
      have heff := (h.sane m).effect hceil (fun o => by simp) hop (hrekey m hin) hexec
      exact h.put_goOn hop.1 (hop.current_ne_idle (h.sane m) fun o => by simp) heff hin (hnest m hin).1 (hnest m hin).2

theorem MutexesBooted.nestInv (h : MutexesBooted H cfg s) : NestInv H cfg ceiling s := by
  have hwants : ∀ m y, ¬ s.Wants m y := by
    rintro m y (⟨hp, -⟩ | ⟨hin, -⟩)
    · simp [(h.sched.base y).1] at hp
    · simp [h.inside] at hin
  have hview : ∀ m y, (s.view m).place y = .outside := fun m y => by simp [MutexesState.view, h.inside]
  refine ⟨⟨_, h.sched.inv⟩, fun m => ⟨⟨_, h.sched.inv⟩, ⟨hview m _, ?_⟩, fun ho => absurd (h.mutex m).1 ho⟩,
    fun {m y} hy => absurd (.inl hy) (hwants m y),
    ?_, fun hin => ?_, fun _ => .inr (hwants _), ⟨?_, ?_, ?_, ?_, ?_, ?_⟩⟩
  · simp [MutexesState.view, (h.mutex m).1]
  · simp [h.stack, MutexesState.Owns, (h.mutex _).1]
  · simp [h.inside] at hin
  all_goals simp [MutexesState.abs, h.stack, h.before]

/-- In every run from boot by legal steps in which mutexes are released in reverse order and that meet `ok`,
priorities are inherited. -/
def InheritsAlways (H : Q.Lawful) (cfg : Config N) (ceiling : ℤ)
    (ok : MutexesState N M V σ → MutexesOp N M V → Prop) : Prop :=
  ∀ s0, MutexesBooted H cfg s0 → ∀ ops,
    Runs.Along (fun s op => MutexesOp.exec Q cfg ceiling s op) (fun s op => s.Legal H cfg op ∧ s.Ordered op ∧
      ok s op) s0 ops →
    ∀ s, Runs.run (fun s op => MutexesOp.exec Q cfg ceiling s op) s0 ops = some s → s.Inherits ceiling

theorem inheritsAlways_of {ok : MutexesState N M V σ → MutexesOp N M V → Prop} (hceil : H.Valid ceiling)
    (hok : ∀ s op, s.Legal H cfg op → ok s op → s.Nests Q ceiling op ∧ s.Rekeys H cfg op) :
    InheritsAlways H cfg ceiling ok := by
  intro s0 hboot ops hall s hrun
  have hstep : ∀ s op s', NestInv H cfg ceiling s → s.Legal H cfg op ∧ s.Ordered op ∧ ok s op →
      MutexesOp.exec Q cfg ceiling s op = some s' → NestInv H cfg ceiling s' := by
    rintro s op s' h ⟨hlegal, hord, hgo⟩ hs
    obtain ⟨hnest, hrekey⟩ := hok s op hlegal hgo
    exact h.exec hceil hlegal hord hnest hrekey hs
  exact (Runs.run_inv hstep hboot.nestInv hall hrun).inherits

/-- What trees need: pending threads keep their places, and the owner is not pending when its priority is adjusted. -/
def MutexesState.OwnersAwake (s : MutexesState N M V σ) : MutexesOp N M V → Prop
  | .sched op => KeepsPlaces s.sched op
  | .lock m timeout => (s.view m).OwnerAwake (.lock timeout)
  | .unlock _ => True
  | .goOn => ∀ m, s.inside s.sched.current = some m → (s.view m).OwnerAwake .goOn

theorem MutexesState.rekeys_of_lists (hrekey : ∀ prio l x k, H.RekeyOk prio l x k) (hlegal : s.Legal H cfg op) :
    s.Rekeys H cfg op := by
  cases op with
  | sched op => exact fun L _ => op.fine_of hlegal.2.1 fun _ _ _ _ _ => hrekey _ _ _ _
  | lock m timeout => exact (MutexOp.lock timeout).rekeys_of_lists hrekey hlegal.1
  | unlock m => trivial
  | goOn => exact fun m hin => MutexOp.goOn.rekeys_of_lists hrekey (hlegal m hin)

theorem MutexesState.rekeys_of_awake (hplace : ∀ {prio l x k}, StableQueue.KeepsPlace prio l x k → H.RekeyOk prio l x k)
    (hlegal : s.Legal H cfg op) (hawake : s.OwnersAwake op) : s.Rekeys H cfg op := by
  cases op with
  | sched op =>
    refine fun L hL => op.fine_of hlegal.2.1 ?_
    rintro x k v rfl hv
    exact hplace (hawake.keepsPlace hL hv)
  | lock m timeout => exact (MutexOp.lock timeout).rekeys_of_awake hplace hlegal.1 hawake
  | unlock m => trivial
  | goOn => exact fun m hin => MutexOp.goOn.rekeys_of_awake hplace (hlegal m hin) (hawake m hin)

/-- **Priority inheritance over any number of mutexes** (mutex.c:12-27), under each choice of queues, in every run
in which `Nests` holds; and for trees, in which no thread changes its priority while it waits in one. -/
theorem mutexes_inherit (N : Nat) (M V : Type) [DecidableEq M] [DecidableEq V] (hN : N ≤ 2 ^ 32)
    (cfg : Config N) (ceiling highest : ℤ) (hceil : (multiqLawful N (M ⊕ V) highest).Valid ceiling) :
    InheritsAlways (dumbLawful N (M ⊕ V)) cfg ceiling (MutexesState.Nests (dumbQueues N (M ⊕ V)) ceiling) ∧
      InheritsAlways (multiqLawful N (M ⊕ V) highest) cfg ceiling
      (MutexesState.Nests (multiqQueues N (M ⊕ V) highest) ceiling) ∧
      InheritsAlways (scalableLawful (M ⊕ V) hN) cfg ceiling
        (fun s op => s.Nests (scalableQueues N (M ⊕ V)) ceiling op ∧ s.OwnersAwake op) := by
  refine ⟨?_, ?_, ?_⟩
  · exact inheritsAlways_of trivial fun s op hlegal hok => ⟨hok, s.rekeys_of_lists (fun _ _ _ _ => trivial) hlegal⟩
  · exact inheritsAlways_of hceil fun s op hlegal hok => ⟨hok, s.rekeys_of_lists (fun _ _ _ _ => trivial) hlegal⟩
  · exact inheritsAlways_of trivial fun s op hlegal hok => ⟨hok.1, s.rekeys_of_awake (fun h => h) hlegal hok.2⟩

/-! ## Two mutexes -/

section decide

variable [Fintype M]

instance MutexesState.decidableWants (s : MutexesState N M V σ) (m : M) (y : Fin N) : Decidable (s.Wants m y) :=
  inferInstanceAs (Decidable (_ ∨ _ ∧ _))

instance MutexesState.decidableLegal [∀ k, Decidable (H.Valid k)] (s : MutexesState N M V σ) (op : MutexesOp N M V) :
    Decidable (s.Legal H cfg op) := by
  cases op <;> dsimp only [MutexesState.Legal] <;> infer_instance

instance MutexesState.decidableOrdered (s : MutexesState N M V σ) (op : MutexesOp N M V) :
    Decidable (s.Ordered op) := by
  rcases op with ⟨_ | _⟩ | _ <;> dsimp only [MutexesState.Ordered] <;> infer_instance

instance MutexesState.decidableMayRaise (s : MutexesState N M V σ) (o : Fin N) (p : ℤ) :
    Decidable (Inheritance.MayRaise ceiling s.abs o p) :=
  inferInstanceAs (Decidable (∀ a m, m ∈ s.stack a → s.Wants m o →
    s.sched.prio a ≤ max p ceiling ∧ ∀ m' ∈ Inheritance.later m (s.stack a),
    (s.mutex m').ownerOrigPrio ≤ max p ceiling))

instance MutexesState.decidableBoostsAll (s : MutexesState N M V σ) (m : M) : Decidable (s.BoostsAll ceiling m) :=
  inferInstanceAs (Decidable (∀ o, (s.mutex m).owner = some o → o ≠ s.sched.current → _ ∧
    (_ → Inheritance.MayRaise ceiling s.abs o _)))

instance MutexesState.decidableSettled (s : MutexesState N M V σ) (m : M) : Decidable (s.Settled Q m) :=
  inferInstanceAs (Decidable ((∀ y, s.inside y = some m → (s.place y).isToPend = false) ∧
    ∀ y x, s.sched.WaitsOn (.inl m) y → Q.best s.sched.queues (.waitq (.inl m)) = some (some x) →
    s.sched.prio x ≤ s.sched.prio y))

instance MutexesState.decidableSpares (s : MutexesState N M V σ) (m : M) (o : Fin N) (p : ℤ) :
    Decidable (s.Spares ceiling m o p) :=
  inferInstanceAs (Decidable ((_ → _) ∧ (∀ m' ∈ Inheritance.later m (s.stack o), ∀ y, s.Wants m' y →
    p ≤ max (s.sched.prio y) ceiling) ∧ (_ → Inheritance.MayRaise ceiling s.abs o p)))

instance MutexesState.decidableSparesOthers (s : MutexesState N M V σ) (m : M) :
    Decidable (s.SparesOthers Q ceiling m) :=
  inferInstanceAs (Decidable (∀ o waiter, (s.mutex m).owner = some o →
    Q.best s.sched.queues (.waitq (.inl m)) = some waiter →
    s.Spares ceiling m o (timedOutPrio ceiling (s.view m) waiter)))

instance MutexesState.decidableNests (s : MutexesState N M V σ) (op : MutexesOp N M V) :
    Decidable (s.Nests Q ceiling op) := by
  cases op <;> dsimp only [MutexesState.Nests] <;> infer_instance

end decide

/-- Two mutexes and the threads of `lowToHigh`. -/
def bootMutexes : MutexesState 4 (Fin 2) Empty (Links (QNode (QueueId (Fin 2 ⊕ Empty)) 4)) where
  sched := ⟨initQueues [.runq, .waitq (.inl 0), .waitq (.inl 1)] (anyLinks (QueueId (Fin 2 ⊕ Empty)) 4), lowToHigh,
    fun y => ⟨false, false, y ≠ 0, false, false, false, 0, none, none⟩, 0, 0, 0, fun _ => []⟩
  mutex _ := ⟨none, 0, 0⟩
  inside _ := none
  place _ := .outside
  got _ := false
  stack _ := []
  before := lowToHigh

theorem bootMutexes_booted : MutexesBooted (dumbLawful 4 (Fin 2 ⊕ Empty)) (bootConfig 4) bootMutexes where
  sched :=
    { rep := initQueues_rep (by
        intro i
        cases i with
        | runq => simp
        | waitq w =>
          rcases w with m | v
          · match m with
            | 0 => simp
            | 1 => simp
          · exact v.elim) _
      base := fun _ => ⟨rfl, rfl, rfl⟩
      prestart := by decide
      current := rfl
      cache := rfl
      nested := rfl
      valid := fun _ _ => trivial
      arrivals := fun _ => rfl }
  mutex _ := ⟨rfl, rfl⟩
  inside _ := rfl
  place _ := rfl
  stack _ := rfl
  before := rfl

/-- Thread 3 waits for the first mutex of thread 1, and only then thread 1 acquires the second one and releases both. -/
def waitsThenNests : List (MutexesOp 4 (Fin 2) Empty) :=
  [.sched (.start 1), .lock 0 (-1), .sched (.start 3), .lock 0 (-1), .goOn, .lock 1 (-1), .unlock 1]

theorem mutexes_inherit_waitsThenNests :
    ∃ s, Runs.run (fun s op => MutexesOp.exec (dumbQueues 4 (Fin 2 ⊕ Empty))
      (bootConfig 4) 0 s op) bootMutexes waitsThenNests = some s ∧
      s.stack 1 = [0] ∧ s.sched.WaitsOn (.inl 0) 3 ∧ s.sched.prio 1 = 1 ∧ s.Inherits 0 := by
  refine Runs.exists_end (P := fun s => s.stack 1 = [0] ∧ s.sched.WaitsOn (.inl 0) 3 ∧ s.sched.prio 1 = 1)
    (by decide +kernel) ?_
  rintro s hrun ⟨hstack, hwaits, hprio⟩
  refine ⟨hstack, hwaits, hprio, ?_⟩
  exact (mutexes_inherit 4 (Fin 2) Empty (by decide) (bootConfig 4) 0 (-16)
    ⟨16, by decide⟩).1 _ bootMutexes_booted _ (by decide +kernel) s hrun

/-- **A mutex that nobody waits for takes the priority away** (mutex.c:232). Thread 1 acquires both mutexes, then
thread 3 waits for the first and raises it. When thread 1 releases the second, in the right order, it is back at
the priority that this one has saved, and lower than thread 3, which still waits. -/
theorem released_falls_low :
    Runs.Along (fun s op => MutexesOp.exec (dumbQueues 4 (Fin 2 ⊕ Empty)) (bootConfig 4) 0 s op)
        (fun s op => s.Legal (dumbLawful 4 (Fin 2 ⊕ Empty)) (bootConfig 4) op ∧ s.Ordered op) bootMutexes
        [.sched (.start 1), .lock 0 (-1), .lock 1 (-1), .sched (.start 3), .lock 0 (-1), .goOn, .unlock 1] ∧
      ∃ s, Runs.run (fun s op => MutexesOp.exec (dumbQueues 4 (Fin 2 ⊕ Empty)) (bootConfig 4) 0 s op) bootMutexes
          [.sched (.start 1), .lock 0 (-1), .lock 1 (-1), .sched (.start 3), .lock 0 (-1), .goOn, .unlock 1] = some s ∧
        s.Owns 0 1 ∧ s.sched.WaitsOn (.inl 0) 3 ∧ s.sched.prio 1 = 10 ∧ s.sched.prio 3 = 1 ∧ ¬ s.Inherits 0 := by
  refine ⟨by decide +kernel, Runs.exists_end (P := fun s => (s.mutex 0).owner = some 1 ∧
    (s.mutex 0).lockCount = 1 ∧ s.sched.WaitsOn (.inl 0) 3 ∧
    s.sched.prio 1 = 10 ∧ s.sched.prio 3 = 1) (by decide +kernel) ?_⟩
  rintro s - ⟨hown, hcount, hwaits, h1, h3⟩
  have howns : s.Owns 0 1 := ⟨hown, by omega⟩
  refine ⟨howns, hwaits, h1, h3, fun hinh => ?_⟩
  have := hinh.raised 0 1 3 howns hwaits
  rw [h1, h3] at this
  omega

end Zephyr
