import Zephyr.Kernel.Sched
/-!
# What the scheduler keeps true

`SchedInv s L`: the queues hold the lists `L`, every thread is where its state says (`AllFit`), and so is the
one that runs. Each function of
sched.c takes one thread out of the place where it fits, changes its state and puts it somewhere else;
in between all but that thread fit (`Flux`), and it is in no queue (`Out`). A thread that has been taken out of its wait
queue and not been made ready is where sched.c does not expect one to be. Such threads are a set `X` of their own,
none in most places: they are in no queue (`Aside`), and an operation on another thread leaves them there.
`Orderly` says what the wait queues are for: their threads stand in order of priority, and of arrival within one.
-/
namespace Zephyr

open StableQueue Sched Function List ThreadBase

variable {N : Nat} {W σ : Type} [DecidableEq W] {Q : Queues N W σ}

/-- The thread `y` is in the queues that its state says. -/
structure Fits (cfg : Config N) (s : Sched N W σ) (L : QueueId W → List (Fin N)) (y : Fin N) : Prop where
  run : y ∈ L .runq ↔ y ≠ cfg.idle ∧ s.isThreadReady y = true
  queued : (s.base y).queued = true ↔ y ∈ L .runq
  pending : (s.base y).pending = true ↔ ∃ w, y ∈ L (.waitq w)
  pendedOn : ∀ w, y ∈ L (.waitq w) → (s.base y).pendedOn = some w
  timeout : ∀ w, (s.base y).timeout = some (some w) → y ∈ L (.waitq w)
  asleep : (s.base y).timeout = some none → (s.base y).pending = false
  idle : y = cfg.idle → (s.base y).pending = false

/-- The thread `y` is in no queue, whatever its state says. -/
structure Aside (s : Sched N W σ) (L : QueueId W → List (Fin N)) (y : Fin N) : Prop where
  out : ∀ i, y ∉ L i
  unqueued : (s.base y).queued = false
  timeout : (s.base y).timeout = none
  dummy : (s.base y).dummy = true → (s.base y).pending = false

/-- A thread of `X` is put aside, and another one is where it fits. -/
def InPlace (cfg : Config N) (s : Sched N W σ) (L : QueueId W → List (Fin N)) (X : Fin N → Bool) (y : Fin N) : Prop :=
  match X y with
  | true => Aside s L y
  | false => Fits cfg s L y

structure AllFit (H : Q.Lawful) (cfg : Config N) (s : Sched N W σ) (L : QueueId W → List (Fin N))
    (X : Fin N → Bool := fun _ => false) :
    Prop where
  rep : H.Rep s.prio s.queues L
  fits : ∀ y, InPlace cfg s L X y
  cache : s.cache = cfg.idle ∨ s.cache ∈ L .runq
  valid : ∀ y, y ≠ cfg.idle → H.Valid (s.prio y)
  idle : X cfg.idle = false

structure SchedInv (H : Q.Lawful) (cfg : Config N) (s : Sched N W σ) (L : QueueId W → List (Fin N))
    (X : Fin N → Bool := fun _ => false) :
    Prop extends AllFit H cfg s L X where
  current : s.nested = 0 → s.current = cfg.idle ∨ s.current ∈ L .runq
  shown : X s.current = false

/-- All threads but `x` fit. -/
structure Flux (H : Q.Lawful) (cfg : Config N) (x : Fin N) (s : Sched N W σ) (L : QueueId W → List (Fin N))
    (X : Fin N → Bool := fun _ => false) : Prop where
  rep : H.Rep s.prio s.queues L
  fits : ∀ y, y ≠ x → InPlace cfg s L X y
  cache : s.cache = cfg.idle ∨ s.cache ∈ L .runq
  current : s.nested = 0 → s.current = cfg.idle ∨ s.current ∈ L .runq ∨ s.current = x
  valid : ∀ y, y ≠ cfg.idle → H.Valid (s.prio y)
  notIdle : x ≠ cfg.idle
  idle : X cfg.idle = false
  shown : X s.current = false
  self : X x = false

/-- All threads but `x` fit, and `x` is in no queue. -/
structure Out (H : Q.Lawful) (cfg : Config N) (x : Fin N) (s : Sched N W σ) (L : QueueId W → List (Fin N))
    (X : Fin N → Bool := fun _ => false) : Prop extends Flux H cfg x s L X where
  out : ∀ i, x ∉ L i
  unqueued : (s.base x).queued = false

/-- Every wait queue has its threads in order of priority, ties as they came. -/
def Orderly (s : Sched N W σ) (L : QueueId W → List (Fin N)) : Prop := ∀ w, Follows s.prio (s.arrivals w) (L (.waitq w))

variable {H : Q.Lawful} {cfg : Config N} {s s' : Sched N W σ} {L : QueueId W → List (Fin N)}
    {X : Fin N → Bool} {x y : Fin N}

/-! ## Where a thread is -/

omit [DecidableEq W] in
/-- Only the record of the thread and its place in the lists matter. -/
theorem Fits.congr {L' : QueueId W → List (Fin N)} (h : Fits cfg s L y) (hb : s'.base y = s.base y)
    (hL : ∀ i, y ∈ L' i ↔ y ∈ L i) :
    Fits cfg s' L' y := by
  refine ⟨?_, ?_, ?_, fun w hw => ?_, fun w hw => ?_, ?_, ?_⟩
  · rw [hL, h.run, Sched.isThreadReady, Sched.isThreadReady, hb]
  · rw [hL, hb, h.queued]
  · simp only [hb, hL, h.pending]
  · rw [hb]; exact h.pendedOn w ((hL _).1 hw)
  · rw [hb] at hw; exact (hL _).2 (h.timeout w hw)
  · rw [hb]; exact h.asleep
  · rw [hb]; exact h.idle

section

omit [DecidableEq W]

theorem InPlace.fits (h : InPlace cfg s L X y) (hX : X y = false) : Fits cfg s L y := by
  rwa [InPlace, hX] at h

theorem InPlace.aside (h : InPlace cfg s L X y) (hX : X y = true) : Aside s L y := by
  rwa [InPlace, hX] at h

theorem Fits.inPlace (h : Fits cfg s L y) (hX : X y = false) : InPlace cfg s L X y := by
  rwa [InPlace, hX]

theorem Aside.inPlace (h : Aside s L y) (hX : X y = true) : InPlace cfg s L X y := by
  rwa [InPlace, hX]

theorem InPlace.congr {L' : QueueId W → List (Fin N)} (h : InPlace cfg s L X y) (hb : s'.base y = s.base y)
    (hL : ∀ i, y ∈ L' i ↔ y ∈ L i) :
    InPlace cfg s' L' X y := by
  cases hX : X y with
  | false => exact ((h.fits hX).congr hb hL).inPlace hX
  | true =>
    obtain ⟨hout, hq, ht, hd⟩ := h.aside hX
    rw [← hb] at hq ht hd
    exact Aside.inPlace ⟨fun i hi => hout i ((hL i).1 hi), hq, ht, hd⟩ hX

end

section

variable (h : AllFit H cfg s L X)

include h

/-- Who is in a queue is not put aside. -/
theorem AllFit.shows {i : QueueId W} (hx : x ∈ L i) : X x = false := by
  by_contra hX
  exact ((h.fits x).aside (by simpa using hX)).out i hx

theorem AllFit.fitsIn {i : QueueId W} (hx : x ∈ L i) : Fits cfg s L x := (h.fits x).fits (h.shows hx)

theorem AllFit.cache_shows : X s.cache = false := by
  rcases h.cache with hc | hc
  · rw [hc]
    exact h.idle
  · exact h.shows hc

/-- Everyone is where they were. -/
theorem AllFit.congr {L' : QueueId W → List (Fin N)} (hrep : H.Rep s'.prio s'.queues L')
    (hb : s'.base = s.base) (hL : ∀ y i, y ∈ L' i ↔ y ∈ L i)
    (hc : s'.cache = cfg.idle ∨ s'.cache ∈ L' .runq) (hv : ∀ y, y ≠ cfg.idle → H.Valid (s'.prio y)) :
    AllFit H cfg s' L' X :=
  ⟨hrep, fun y => (h.fits y).congr (by rw [hb]) (hL y), hc, hv, h.idle⟩

end

omit [DecidableEq W] in
theorem ready_eq (b : ThreadBase W) :
    b.isThreadReady = !(b.pending || b.prestart || b.dead || b.dummy || b.suspended || b.isThreadTimeoutActive) := rfl

omit [DecidableEq W] in
theorem ready_iff (b : ThreadBase W) : b.isThreadReady = true ↔
    b.pending = false ∧ b.prestart = false ∧ b.dead = false ∧ b.dummy = false ∧ b.suspended = false ∧
    b.timeout = none := by
  simp only [ready_eq, isThreadTimeoutActive, Bool.not_eq_true',
    Bool.or_eq_false_iff, Option.isSome_eq_false_iff, Option.isNone_iff_eq_none, and_assoc]

theorem SchedInv.flux (h : SchedInv H cfg s L X) (hx : x ≠ cfg.idle) (hX : X x = false := by rfl) :
    Flux H cfg x s L X :=
  ⟨h.rep, fun y _ => h.fits y, h.cache, fun hn => (h.current hn).imp_right .inl, h.valid, hx, h.idle, h.shown, hX⟩

theorem SchedInv.out (h : SchedInv H cfg s L X) (hx : x ≠ cfg.idle) (hr : s.isThreadReady x = false)
    (hp : (s.base x).pending = false) (hX : X x = false := by rfl) : Out H cfg x s L X := by
  have hfit := (h.fits x).fits hX
  have hrun : x ∉ L .runq := by simp [hfit.run, hr]
  refine ⟨h.flux hx hX, fun i hi => ?_, by simpa using fun hq => hrun (hfit.queued.1 hq)⟩
  cases i with
  | runq => exact hrun hi
  | waitq w => simpa [hp] using hfit.pending.2 ⟨w, hi⟩

theorem Flux.setBase (h : Flux H cfg x s L X) (f : ThreadBase W → ThreadBase W) : Flux H cfg x (s.setBase x f) L X :=
  { h with fits := fun y hy => (h.fits y hy).congr (setBase_ne hy) fun _ => Iff.rfl }

theorem Out.setBase (h : Out H cfg x s L X) {f : ThreadBase W → ThreadBase W}
    (hf : (f (s.base x)).queued = (s.base x).queued) :
    Out H cfg x (s.setBase x f) L X :=
  ⟨h.toFlux.setBase f, h.out, by rw [setBase_self, hf, h.unqueued]⟩

/-- A thread that is in no queue fits if it is not ready and not pending. -/
theorem Out.fits_self (h : Out H cfg x s L X) (hr : s.isThreadReady x = false) (hp : (s.base x).pending = false)
    (ht : ∀ w, (s.base x).timeout ≠ some (some w)) : Fits cfg s L x :=
  ⟨by simp [h.out, hr], by simp [h.out, h.unqueued], by simp [h.out, hp], fun w hw => absurd hw (h.out _),
    fun w hw => absurd hw (ht w),
    fun _ => hp, fun _ => hp⟩

theorem Out.close (h : Out H cfg x s L X) (hr : s.isThreadReady x = false) (hp : (s.base x).pending = false)
    (ht : ∀ w, (s.base x).timeout ≠ some (some w)) : AllFit H cfg s L X where
  rep := h.rep
  fits y := by
    by_cases hy : y = x
    · subst hy; exact (h.fits_self hr hp ht).inPlace h.self
    · exact h.fits y hy
  cache := h.cache
  valid := h.valid
  idle := h.idle

theorem AllFit.swap (h : AllFit H cfg s L X) : SchedInv H cfg s.swap L X :=
  ⟨h.congr h.rep rfl (fun _ _ => Iff.rfl) h.cache h.valid, fun _ => h.cache, h.cache_shows⟩

theorem AllFit.reschedule (h : AllFit H cfg s L X) (hX : X s.current = false) : SchedInv H cfg s.reschedule L X := by
  unfold Sched.reschedule
  split
  · exact ⟨h, fun hn => absurd hn (by assumption), hX⟩
  · exact h.swap

theorem SchedInv.reschedule (h : SchedInv H cfg s L X) : SchedInv H cfg s.reschedule L X :=
    h.toAllFit.reschedule h.shown

theorem Flux.sched (h : Flux H cfg x s L X) (hfit : AllFit H cfg s L X)
    (hcur : s.nested = 0 → s.current ≠ x) : SchedInv H cfg s L X :=
  ⟨hfit, fun hn => (h.current hn).imp_right fun hc => hc.resolve_right (hcur hn), h.shown⟩

/-! ## The ready queue -/

omit [DecidableEq W] in
theorem shouldPreempt_eq_false {th : Fin N} {ok : Bool} (h : shouldPreempt cfg s th ok = false) :
    ok = false ∧ s.isThreadReady s.current = true ∧ s.current ≠ cfg.idle := by
  unfold shouldPreempt at h
  split at h
  · simp at h
  · split at h
    · simp at h
    · split at h
      · simp at h
      · simp_all

theorem updateCache_spec (cfg : Config N) (hrep : H.Rep s.prio s.queues L) (ok : Bool)
    (hcur : ok = false → s.current ≠ cfg.idle → s.isThreadReady s.current = true → s.current ∈ L .runq) :
    ∃ c, updateCache Q cfg s ok = some { s with cache := c } ∧ (c = cfg.idle ∨ c ∈ L .runq) := by
  have hbest := H.best_spec hrep .runq
  refine ⟨_, by simp [updateCache, nextUp, hbest]; rfl, ?_⟩
  split
  · cases hl : L .runq with
    | nil => left; rfl
    | cons a l => right; simp
  · -- nobody preempts a thread that is ready and is not the idle thread
    rename_i hno
    obtain ⟨hok, hready, hidle⟩ := shouldPreempt_eq_false (Bool.eq_false_iff.2 hno)
    exact .inr (hcur hok hidle hready)

/-- One list changed by `x` only: everyone else is where they were. -/
theorem mem_update_of_ne {i : QueueId W} {l' : List (Fin N)} (hl : ∀ z, z ≠ x → (z ∈ l' ↔ z ∈ L i))
    (hy : y ≠ x) (j : QueueId W) :
    y ∈ update L i l' j ↔ y ∈ L j := by
  by_cases hj : j = i
  · subst hj; rw [update_self]; exact hl y hy
  · rw [update_of_ne hj]

/-- **`_add_thread_to_ready_q` (sched.c:225)** of a thread that is ready and in no queue. -/
theorem addThreadToReadyQ_spec (h : Out H cfg x s L X) (hr : s.isThreadReady x = true) :
    ∃ q c l', addThreadToReadyQ Q cfg s x = some ((s.put q c).setBase x .markAsQueued) ∧ l'.Perm (x :: L .runq) ∧
      SchedInv H cfg ((s.put q c).setBase x .markAsQueued) (update L .runq l') X := by
  obtain ⟨q, l', hadd, hrep, hperm, -⟩ := H.add_spec h.rep h.out (h.valid x h.notIdle) .runq
  have hmem : ∀ z, z ∈ l' ↔ z = x ∨ z ∈ L .runq := fun z => by rw [hperm.mem_iff, mem_cons]
  have hothers : ∀ z, z ≠ x → (z ∈ l' ↔ z ∈ L .runq) := fun z hz => by simp [hmem, hz]
  obtain ⟨hp, -, -, -, -, ht⟩ := (ready_iff _).1 hr
  -- everyone fits again
  have hfits : ∀ y c, InPlace cfg ((s.put q c).setBase x .markAsQueued) (update L .runq l') X y := by
    intro y c
    by_cases hy : y = x
    · subst hy
      refine Fits.inPlace ?_ h.self
      have hwait : ∀ w, y ∉ update L .runq l' (.waitq w) := fun w => by
        rw [update_of_ne (by simp)]; exact h.out _
      have hr' : ((s.put q c).setBase y .markAsQueued).isThreadReady y = true := by
        simpa [Sched.isThreadReady, ready_iff, markAsQueued] using hr
      refine ⟨by simpa [hmem, h.notIdle] using hr', by simp [hmem, markAsQueued], ?_, fun w hw => absurd hw (hwait w),
        fun w hw => ?_, fun hw => ?_, fun _ => ?_⟩
      · simp only [hwait, exists_false]; simp [markAsQueued, hp]
      · simp [markAsQueued, ht] at hw
      · simp [markAsQueued, ht] at hw
      · simpa [markAsQueued] using hp
    · exact (h.fits y hy).congr (setBase_ne hy) (mem_update_of_ne hothers hy)
  obtain ⟨c, hcache, hc⟩ := updateCache_spec cfg (s := (s.put q s.cache).setBase x .markAsQueued) hrep false
    (fun _ hi hready => ((hfits s.current s.cache).fits h.shown).run.2 ⟨hi, hready⟩)
  refine ⟨q, c, l', by rw [addThreadToReadyQ, hadd]; exact hcache, hperm,
    ⟨hrep, fun y => hfits y c, hc, h.valid, h.idle⟩, fun hn => ?_, h.shown⟩
  rcases h.current hn with hcur | hcur | hcur
  · exact .inl hcur
  · right; simp [hmem, hcur]
  · right; simp [hmem, hcur]

/-- **`_remove_thread_from_ready_q` (sched.c:244)** of a thread that is queued. -/
theorem removeThreadFromReadyQ_spec (h : SchedInv H cfg s L X) (hx : x ∈ L .runq) :
    ∃ q c, removeThreadFromReadyQ Q cfg s x = some ((s.put q c).setBase x .markAsNotQueued) ∧
      Out H cfg x ((s.put q c).setBase x .markAsNotQueued) (update L .runq ((L .runq).erase x)) X ∧
      ∀ w y, H.Fresh s.prio s.queues (.waitq w) (L (.waitq w)) y → H.Fresh s.prio q (.waitq w) (L (.waitq w)) y := by
  obtain ⟨q, hrem, hrep, hfresh⟩ := H.remove_spec h.rep hx
  have hnd := H.nodup h.rep .runq
  have hothers : ∀ z, z ≠ x → (z ∈ (L .runq).erase x ↔ z ∈ L .runq) := fun z hz => by simp [hnd.mem_erase_iff, hz]
  have hfits : ∀ y c, y ≠ x → InPlace cfg ((s.put q c).setBase x .markAsNotQueued)
    (update L .runq ((L .runq).erase x)) X y :=
    fun y c hy => (h.fits y).congr (setBase_ne hy) (mem_update_of_ne hothers hy)
  obtain ⟨c, hcache, hc⟩ := updateCache_spec cfg (s := (s.put q s.cache).setBase x .markAsNotQueued) hrep
    (decide (x = s.current))
    (fun hne hi hready => ((hfits s.current s.cache (Ne.symm (by simpa using hne))).fits h.shown).run.2 ⟨hi, hready⟩)
  have hfit := h.fitsIn hx
  refine ⟨q, c, ?_, ⟨⟨hrep, fun y hy => hfits y c hy, hc, fun hn => ?_, h.valid, (hfit.run.1 hx).1, h.idle,
    h.shown, h.shows hx⟩, fun i => ?_, ?_⟩, fun w y => hfresh (.waitq w) y (by simp)⟩
  · rw [removeThreadFromReadyQ, if_pos (hfit.queued.2 hx), hrem]
    exact hcache
  · by_cases hcur : s.current = x
    · exact .inr (.inr hcur)
    · exact (h.current hn).imp_right fun hc => .inl (by simpa [hothers _ hcur] using hc)
  · cases i with
    | runq => simp [hnd.mem_erase_iff]
    | waitq w => rw [update_of_ne (by simp)]; exact H.disj h.rep (by simp) hx
  · simp [markAsNotQueued]

/-- At most the queues, `cache` and the `queued` bit of `x` differ. -/
structure QueuesOnly (x : Fin N) (s s' : Sched N W σ) : Prop where
  base : ∀ y, y ≠ x → s'.base y = s.base y
  self : { s'.base x with queued := (s.base x).queued } = s.base x
  prio : s'.prio = s.prio
  current : s'.current = s.current
  nested : s'.nested = s.nested
  arrivals : s'.arrivals = s.arrivals

omit [DecidableEq W] in
theorem Orderly.congr {L' : QueueId W → List (Fin N)} (h : Orderly s L) (hp : s'.prio = s.prio)
    (ha : s'.arrivals = s.arrivals) (hL : ∀ w, L' (.waitq w) = L (.waitq w)) : Orderly s' L' := fun w => by
  rw [hp, ha, hL]; exact h w

/-- **`_ready_thread` (ksched.h:230)** of a thread in no queue. -/
theorem readyThread_spec (h : Out H cfg x s L X) (hp : (s.base x).pending = false)
    (ht : ∀ w, (s.base x).timeout ≠ some (some w)) (hcur : s.nested = 0 → s.current = x → s.isThreadReady x = true) :
    ∃ s' L', readyThread Q cfg s x = some s' ∧ SchedInv H cfg s' L' X ∧ (∀ w, L' (.waitq w) = L (.waitq w)) ∧
    QueuesOnly x s s' := by
  by_cases hr : s.isThreadReady x = true
  · obtain ⟨q, c, l', hadd, -, hinv⟩ := addThreadToReadyQ_spec h hr
    refine ⟨_, _, by rw [readyThread, if_pos hr, hadd], hinv, fun w => update_of_ne (by simp) _ _,
      fun y hy => setBase_ne hy, ?_, rfl, rfl, rfl, rfl⟩
    simp [markAsQueued]
  · have hr' : s.isThreadReady x = false := by simpa using hr
    refine ⟨s, L, by rw [readyThread, if_neg hr], h.toFlux.sched (h.close hr' hp ht) fun hn hc => ?_, fun _ => rfl,
      fun _ _ => rfl, rfl, rfl, rfl, rfl, rfl⟩
    exact hr (hcur hn hc)

/-! ## Wait queues -/

/-- The state when `x` is out of its wait queue. -/
def unpended (s : Sched N W σ) (x : Fin N) (q : σ) : Sched N W σ :=
  { s with queues := q, arrivals := fun v => (s.arrivals v).erase x }.setBase x .markAsNotPending

/-- **`_unpend_thread_no_timeout` (sched.c:308)** of a thread in the wait queue that its record names. -/
theorem unpendThreadNoTimeout_spec (h : Flux H cfg x s L X) {w : W} (hx : x ∈ L (.waitq w))
    (hon : (s.base x).pendedOn = some w) (hq : (s.base x).queued = false) :
    ∃ q, unpendThreadNoTimeout Q s x = some (unpended s x q) ∧
      Out H cfg x (unpended s x q) (update L (.waitq w) ((L (.waitq w)).erase x)) X := by
  obtain ⟨q, hrem, hrep, -⟩ := H.remove_spec h.rep hx
  have hnd := H.nodup h.rep (.waitq w)
  have hothers : ∀ z, z ≠ x → (z ∈ (L (.waitq w)).erase x ↔ z ∈ L (.waitq w)) := fun z hz => by
    simp [hnd.mem_erase_iff, hz]
  refine ⟨q, by simp [unpendThreadNoTimeout, hon, hrem, unpended],
    ⟨⟨hrep, fun y hy => ?_, ?_, fun hn => ?_, h.valid, h.notIdle, h.idle, h.shown, h.self⟩, fun i => ?_, ?_⟩⟩
  · exact (h.fits y hy).congr (setBase_ne hy) (mem_update_of_ne hothers hy)
  · rw [update_of_ne (by simp)]; exact h.cache
  · rw [update_of_ne (by simp)]; exact h.current hn
  · by_cases hi : i = .waitq w
    · subst hi; simp [hnd.mem_erase_iff]
    · rw [update_of_ne hi]; exact H.disj h.rep (Ne.symm hi) hx
  · simpa [unpended, markAsNotPending] using hq

theorem Orderly.leave (h : Orderly s L) (hrep : H.Rep s.prio s.queues L) {w : W} (hx : x ∈ L (.waitq w))
    (hp : s'.prio = s.prio) (ha : s'.arrivals = fun v => (s.arrivals v).erase x) :
    Orderly s' (update L (.waitq w) ((L (.waitq w)).erase x)) := by
  intro v
  rw [hp, ha]
  by_cases hv : v = w
  · subst hv; rw [update_self]; exact (h v).erase x
  · have hne : QueueId.waitq v ≠ QueueId.waitq w := by simpa using hv
    rw [update_of_ne hne, ← erase_of_not_mem (H.disj hrep (Ne.symm hne) hx)]
    exact (h v).erase x

/-- **The end of `pend` (sched.c:274)**: a thread in no queue that is marked as pending. -/
theorem waitAdd_spec (h : Out H cfg x s L X) {w : W} (hp : (s.base x).pending = true)
    (ht : (s.base x).timeout = none ∨ (s.base x).timeout = some (some w)) :
    ∃ q l', waitAdd Q s x w = some { s.setBase x (.setPendedOn w) with
        queues := q, arrivals := update s.arrivals w (s.arrivals w ++ [x]) } ∧
      AllFit H cfg { s.setBase x (.setPendedOn w) with queues := q, arrivals := update s.arrivals w (s.arrivals w ++ [x]) }
        (update L (.waitq w) l') X ∧
      (H.Fresh s.prio s.queues (.waitq w) (L (.waitq w)) x → l' = enq s.prio x (L (.waitq w))) := by
  obtain ⟨q, l', hadd, hrep, hperm, hfresh⟩ := H.add_spec h.rep h.out (h.valid x h.notIdle) (.waitq w)
  have hmem : ∀ z, z ∈ l' ↔ z = x ∨ z ∈ L (.waitq w) := fun z => by rw [hperm.mem_iff, mem_cons]
  have hothers : ∀ z, z ≠ x → (z ∈ l' ↔ z ∈ L (.waitq w)) := fun z hz => by simp [hmem, hz]
  have hwhere : ∀ v, x ∈ update L (.waitq w) l' (.waitq v) ↔ v = w := by
    intro v
    by_cases hv : v = w
    · subst hv; simp [hmem]
    · rw [update_of_ne (by simpa using hv)]; simp [h.out, hv]
  refine ⟨q, l', by simp only [waitAdd, setBase_prio, setBase_queues, hadd]; rfl,
    ⟨hrep, fun y => ?_, ?_, h.valid, h.idle⟩, hfresh⟩
  · by_cases hy : y = x
    · subst hy
      refine Fits.inPlace ⟨?_, ?_, ?_, fun v hv => ?_, fun v hv => ?_, fun hv => ?_,
        fun hi => absurd hi h.notIdle⟩ h.self
      · simp [h.out, Sched.isThreadReady, setPendedOn, ready_eq, hp]
      · simp [h.out, setPendedOn, h.unqueued]
      · simp [hwhere, setPendedOn, hp]
      · simp [(hwhere v).1 hv, setPendedOn]
      · rcases ht with ht | ht <;> simp_all [setPendedOn]
      · rcases ht with ht | ht <;> simp_all [setPendedOn]
    · exact (h.fits y hy).congr (setBase_ne hy) (mem_update_of_ne hothers hy)
  · rw [update_of_ne (by simp)]; exact h.cache

theorem Orderly.enter (h : Orderly s L) {w : W} {l' : List (Fin N)} (hl : l' = enq s.prio x (L (.waitq w)))
    (hp : s'.prio = s.prio)
    (ha : s'.arrivals = update s.arrivals w (s.arrivals w ++ [x])) : Orderly s' (update L (.waitq w) l') := by
  intro v
  rw [hp, ha]
  by_cases hv : v = w
  · subst hv; rw [update_self, update_self, hl]; exact (h v).enq
  · rw [update_of_ne hv, update_of_ne (by simpa using hv)]; exact h v

/-! ## Priorities -/

/-- A thread of the run queue with the priority `k` from now on. -/
theorem requeue_spec (h : SchedInv H cfg s L X) (hx : x ∈ L .runq) {k : ℤ} (hk : H.Valid k) :
    ∃ q c l', requeue Q cfg s x (update s.prio x k) = some ((s.put q c).setPrio x k) ∧
      SchedInv H cfg ((s.put q c).setPrio x k) (update L .runq l') X := by
  obtain ⟨q1, hrem, hrep1, -⟩ := H.remove_spec h.rep hx
  have hnd := H.nodup h.rep .runq
  have hout : ∀ i, x ∉ update L .runq ((L .runq).erase x) i := by
    intro i
    cases i with
    | runq => simp [hnd.mem_erase_iff]
    | waitq w => rw [update_of_ne (by simp)]; exact H.disj h.rep (by simp) hx
  have hrep2 := H.rekey_spec (k := k) hrep1 (hout .runq) fun w hw => absurd hw (hout _)
  obtain ⟨q, l', hadd, hrep, hperm, -⟩ := H.add_spec hrep2 hout (by simpa using hk) .runq
  rw [update_self] at hperm
  rw [update_idem] at hrep
  have hsame : ∀ z, z ∈ l' ↔ z ∈ L .runq := fun z => by
    rw [hperm.mem_iff, mem_cons, hnd.mem_erase_iff]
    by_cases hz : z = x
    · simp [hz, hx]
    · simp [hz]
  have hplaces : ∀ y i, y ∈ update L .runq l' i ↔ y ∈ L i := fun y i => by
    by_cases hi : i = .runq
    · subst hi; rw [update_self]; exact hsame y
    · rw [update_of_ne hi]
  obtain ⟨c, hcache, hc⟩ := updateCache_spec cfg (s := (s.put q s.cache).setPrio x k) hrep true
    (fun hok => by simp at hok)
  refine ⟨q, c, l', ?_, h.congr hrep rfl hplaces hc fun y hy => ?_, fun hn => ?_, h.shown⟩
  · unfold requeue
    rw [hrem]
    show (Q.add (update s.prio x k) q1 .runq x).bind _ = _
    rw [hadd]
    exact hcache
  · by_cases hyx : y = x
    · subst hyx; simpa [setPrio] using hk
    · simpa [setPrio, hyx] using h.valid y hy
  · simpa [setPrio, hsame] using h.current hn

end Zephyr
