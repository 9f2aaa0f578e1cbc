import Zephyr.Kernel.MutexRuns
/-!
# A thread that has timed out on a mutex (kernel/mutex.c:181-201)

A waiter whose timeout has expired is out of the wait queue, and some time later it is `_current` again and writes a
priority for the owner. Meanwhile the mutex can have passed through other hands. What it finds is right, but
for one thing: if the mutex was released and nobody waited, there is no owner to write to.

`SavedState.saved` is not in the source: it is the priority that a thread had when the mutex last became its own.
-/
namespace Zephyr

open Ring Sched Function Option

variable {N : Nat} {W σ : Type} [DecidableEq W]

structure SavedState (N : Nat) (W σ : Type) where
  mutex : MutexState N W σ
  saved : Fin N → ℤ

def MutexOp.savedAfter (Q : Queues N W σ) (waitQ : W) (st : SavedState N W σ) (op : MutexOp N W) : Fin N → ℤ :=
  match op.acquirer Q waitQ st.mutex with
  | some t => update st.saved t (st.mutex.sched.prio t)
  | none => st.saved

def SavedState.exec (Q : Queues N W σ) (cfg : Config N) (waitQ : W) (ceiling : ℤ) (st : SavedState N W σ)
    (op : MutexOp N W) :
    Option (SavedState N W σ) :=
  (op.exec Q cfg waitQ ceiling st.mutex).map fun s => ⟨s, op.savedAfter Q waitQ st⟩

/-! ## What is to hold -/

/-- The priority `p` is the saved one, raised by those that wait and by nobody else, and to the ceiling at most. -/
def MutexState.RaisedTo (waitQ : W) (ceiling : ℤ) (s : MutexState N W σ) (saved p : ℤ) : Prop :=
  p ≤ saved ∧ (∀ y, s.sched.WaitsOn waitQ y → p ≤ max (s.sched.prio y) ceiling) ∧
    (p = saved ∨ ∃ y, s.sched.WaitsOn waitQ y ∧ p = max (s.sched.prio y) ceiling)

/-- The mutex and its wait queue are as they were. -/
def MutexState.SameLock (waitQ : W) (s s' : MutexState N W σ) : Prop :=
  s'.mutex = s.mutex ∧ ∀ y, s'.sched.WaitsOn waitQ y ↔ s.sched.WaitsOn waitQ y

/-- The thread that runs has timed out in `k_mutex_lock`. -/
def MutexState.TimedOut (s : MutexState N W σ) : Prop :=
  s.sched.nested = 0 ∧ s.place s.sched.current = .pended ∧ s.got s.sched.current = false

/-- The way of a thread that has timed out from where it goes on: it is not in the queue, there is an owner, and
all that changes is the owner's priority. -/
structure SavedState.Resumes (Q : Queues N W σ) (cfg : Config N) (waitQ : W) (ceiling : ℤ)
    (st : SavedState N W σ) : Prop where
  out : ¬ st.mutex.sched.WaitsOn waitQ st.mutex.sched.current
  owner : ∃ owner st' p, st.mutex.mutex.owner = some owner ∧ st.exec Q cfg waitQ ceiling .goOn = some st' ∧
    st.mutex.SameLock waitQ st'.mutex ∧ st'.mutex.sched.prio = update st.mutex.sched.prio owner p ∧
    st.mutex.RaisedTo waitQ ceiling (st.saved owner) p

/-- The thread is on its way into the queue of the mutex, in it, or back from it without the mutex. -/
def MutexState.Lingers (s : MutexState N W σ) (y : Fin N) : Prop :=
  (s.sched.base y).dead = false ∧ ((s.place y).isToPend = true ∨ s.place y = .pended ∧ s.got y = false)

/-- The first of those that wait has the highest priority, and the saved priority is not above the ceiling. -/
def MutexState.HeadFirst (Q : Queues N W σ) (waitQ : W) (ceiling : ℤ) (s : MutexState N W σ) : Prop :=
  ∀ y, s.sched.WaitsOn waitQ y →
    ceiling ≤ s.mutex.ownerOrigPrio ∧ ∀ x, Q.best s.sched.queues (.waitq waitQ) = some (some x) →
    s.sched.prio x ≤ s.sched.prio y

/-- `k_mutex_unlock` finds the queue empty only if no thread lingers, and a thread that has timed out finds it in
order. -/
def MutexState.NoneLeft (Q : Queues N W σ) (waitQ : W) (ceiling : ℤ) (s : MutexState N W σ) : MutexOp N W → Prop
  | .goOn => (s.place s.sched.current = .toHandOver → (∀ y, ¬ s.sched.WaitsOn waitQ y) → ∀ y, ¬ s.Lingers y) ∧
      (s.place s.sched.current = .pended → s.got s.sched.current = false → s.HeadFirst Q waitQ ceiling)
  | _ => True

/-! ## What stays true -/

variable {Q : Queues N W σ} {H : Q.Lawful} {cfg : Config N} {waitQ : W} {ceiling : ℤ}

/-- The saved priority is the owner's, and a mutex for which a thread lingers has an owner. -/
structure ResumeInv (H : Q.Lawful) (cfg : Config N) (st : SavedState N W σ) : Prop where
  sane : MutexSane H cfg st.mutex
  saved : ∀ y, st.mutex.mutex.owner = some y → st.mutex.mutex.ownerOrigPrio = st.saved y
  owned : ∀ y, st.mutex.Lingers y → st.mutex.mutex.owner ≠ none

section steps

variable {s s' : MutexState N W σ} {st : SavedState N W σ} {op : MutexOp N W}

/-- Only a thread that runs comes to linger, and it did before unless it starts to. -/
theorem MutexEffect.lingers (heff : MutexEffect H cfg waitQ ceiling s op s') {y : Fin N} (hy : s'.Lingers y) :
    s.Lingers y ∨ s'.mutex.owner ≠ none := by
  obtain ⟨halive, hplace⟩ := hy
  have hback := heff.alive y halive
  by_cases hyc : y = s.sched.current
  · subst hyc
    cases heff with
    | take => exact .inr (by simp)
    | boost _ _ own => exact .inr (by simp [own])
    | pend place => exact .inl ⟨hback, .inl (by rw [place]; rfl)⟩
    | pass => exact .inr (by simp)
    | busy | drop => exact .inl ⟨hback, hplace⟩
    | granted | timedOut | giveUp | release | clear => simp [Place.isToPend] at hplace
  · rw [heff.place_of_ne hyc] at hplace
    refine .inl ⟨hback, hplace.imp id fun hp => ⟨hp.1, ?_⟩⟩
    have hgot := hp.2
    cases heff with
    | pend | granted => simpa [hyc] using hgot
    | @pass _ n _ _ _ _ _ _ =>
      by_cases hn : y = n
      · simp [hn] at hgot
      · simpa [hn] using hgot
    | take | busy | boost | timedOut | giveUp | drop | release | clear => exact hgot

theorem MutexEffect.owned (heff : MutexEffect H cfg waitQ ceiling s op s') (hnone : s.NoneLeft Q waitQ ceiling op)
    (hown : ∀ y, s.Lingers y → s.mutex.owner ≠ none) {y : Fin N} (hy : s'.Lingers y) : s'.mutex.owner ≠ none := by
  rcases heff.lingers hy with hold | hsome
  · cases heff with
    | take | pass => simp
    | clear place none => exact absurd hold (hnone.1 place none y)
    | busy | boost | pend | granted | timedOut | giveUp | drop | release => exact hown y hold
  · exact hsome

theorem MutexEffect.saved (heff : MutexEffect H cfg waitQ ceiling st.mutex op s')
    (hsaved : ∀ y, st.mutex.mutex.owner = some y → st.mutex.mutex.ownerOrigPrio = st.saved y) {y : Fin N}
    (hy : s'.mutex.owner = some y) :
    s'.mutex.ownerOrigPrio = op.savedAfter Q waitQ st y := by
  cases heff with
  | take _ fast =>
    obtain rfl : st.mutex.sched.current = y := some.inj hy
    by_cases hc : st.mutex.mutex.lockCount = 0
    · simp [MutexOp.savedAfter, MutexOp.acquirer, hc]
    · simpa [MutexOp.savedAfter, MutexOp.acquirer, hc] using hsaved _ (fast.resolve_left hc)
  | busy count => simpa [MutexOp.savedAfter, MutexOp.acquirer, count] using hsaved y hy
  | boost _ count => simpa [MutexOp.savedAfter, MutexOp.acquirer, count] using hsaved y hy
  | pend place | granted place | timedOut place | giveUp place =>
    simpa [MutexOp.savedAfter, MutexOp.acquirer, place] using hsaved y hy
  | drop | release => simpa [MutexOp.savedAfter, MutexOp.acquirer] using hsaved y hy
  | clear => cases hy
  | @pass _ n place best =>
    obtain rfl : n = y := some.inj hy
    simp [MutexOp.savedAfter, MutexOp.acquirer, place, best]

/-- **One step.** -/
theorem ResumeInv.exec (hceil : H.Valid ceiling) (h : ResumeInv H cfg st) (hlegal : op.Legal H cfg waitQ st.mutex)
    (hnone : st.mutex.NoneLeft Q waitQ ceiling op) (hrekey : op.Rekeys H cfg st.mutex) {st' : SavedState N W σ}
    (hs : st.exec Q cfg waitQ ceiling op = some st') : ResumeInv H cfg st' := by
  obtain ⟨s', hexec, rfl⟩ := map_eq_some_iff.1 hs
  by_cases hop : ∃ o, op = .sched o
  · obtain ⟨op, rfl⟩ := hop
    obtain ⟨sched, hsched, rfl⟩ := map_eq_some_iff.1 hexec
    obtain ⟨hsane, -⟩ := h.sane.sched_exec hlegal.1 hrekey hlegal.2.2.1 hsched
    exact ⟨hsane, h.saved, fun y hy => h.owned y ⟨exec_noneRevived hsched y hy.1, hy.2⟩⟩
  · have hop' : ∀ o, op ≠ .sched o := fun o e => hop ⟨o, e⟩
    have heff := h.sane.effect hceil hop' hlegal hrekey hexec
    exact ⟨heff.sane h.sane (hlegal.current_ne_idle h.sane hop'), fun y hy => heff.saved h.saved hy,
      fun y hy => heff.owned hnone h.owned hy⟩

/-! ## The time-out path -/

/-- `adjust_owner_prio` comes to its end if there is an owner. -/
theorem adjustOwnerPrio_total {sched : Sched N W σ} {L : QueueId W → List (Fin N)}
    (hL : SchedInv H cfg sched L) {mutex : KMutex N} {owner : Fin N}
    (hown : mutex.owner = some owner) (hne : owner ≠ cfg.idle) {k : ℤ} (hk : H.Valid k)
    (hrekey : ∀ v, owner ∈ L (.waitq v) → H.RekeyOk sched.prio (L (.waitq v)) owner k) :
    ∃ t, adjustOwnerPrio Q cfg mutex sched k = some t := by
  unfold adjustOwnerPrio
  rw [hown]
  show ∃ t, (if sched.prio owner ≠ k then threadPrioritySet Q cfg sched owner k else some sched) = some t
  split
  · obtain ⟨t, -, ht, -⟩ := threadPrioritySet_keeps hL hne hk hrekey
    exact ⟨t, ht⟩
  · exact ⟨sched, rfl⟩

/-- The priority that is written is the saved one, raised by those that wait. -/
theorem timedOutPrio_raised (h : MutexSane H cfg s)
    (htimed : s.place s.sched.current = .pended ∧ s.got s.sched.current = false)
    (hnone : s.NoneLeft Q waitQ ceiling .goOn) {waiter : Option (Fin N)}
    (hbest : Q.best s.sched.queues (.waitq waitQ) = some waiter) :
    s.RaisedTo waitQ ceiling s.mutex.ownerOrigPrio (timedOutPrio ceiling s waiter) := by
  obtain ⟨hsome, hempty⟩ := h.best_waits hbest
  cases waiter with
  | none => exact ⟨le_refl _, fun y hy => absurd hy (hempty rfl y), .inl rfl⟩
  | some x =>
    have hx := hsome x rfl
    obtain ⟨hceil, -⟩ := hnone.2 htimed.1 htimed.2 x hx
    have hfirst : ∀ y, s.sched.WaitsOn waitQ y → s.sched.prio x ≤ s.sched.prio y :=
      fun y hy => (hnone.2 htimed.1 htimed.2 y hy).2 x hbest
    simp only [timedOutPrio, newPrioForInheritance_eq, MutexState.RaisedTo]
    refine ⟨by omega, fun y hy => ?_, ?_⟩
    · have := hfirst y hy
      omega
    · by_cases hlt : s.sched.prio x < s.mutex.ownerOrigPrio
      · exact .inr ⟨x, hx, by omega⟩
      · exact .inl (by omega)

theorem MutexEffect.timedOut_sameLock (heff : MutexEffect H cfg waitQ ceiling s .goOn s')
    (hplace : s.place s.sched.current = .pended ∧ s.got s.sched.current = false ∨
      s.place s.sched.current = .toGiveUp) : s.SameLock waitQ s' := by
  cases heff with
  | timedOut _ _ _ _ quiet same _ => exact ⟨rfl, fun y => ⟨(quiet.calm waitQ _ rfl).2 y, same y⟩⟩
  | giveUp _ quiet same _ => exact ⟨rfl, fun y => ⟨(quiet.calm waitQ _ rfl).2 y, same y⟩⟩
  | pend place | clear place | pass place => simp [place] at hplace
  | granted place got => simp [place, got] at hplace

/-- **A thread that has timed out goes on** (mutex.c:181-195). -/
theorem ResumeInv.resumes (hceil : H.Valid ceiling) (h : ResumeInv H cfg st) (htimed : st.mutex.TimedOut)
    (hnone : st.mutex.NoneLeft Q waitQ ceiling .goOn) (hrekey : RekeysOwner H cfg st.mutex) :
    st.Resumes Q cfg waitQ ceiling := by
  obtain ⟨hn, hplace, hgot⟩ := htimed
  obtain ⟨L, hL⟩ := h.sane.sched
  have hi := h.sane.current_ne_idle (by simp [hplace])
  refine ⟨hL.current_not_waits hn, ?_⟩
  -- the thread runs and so it has not been aborted
  have hready := ((hL.fits _).run.1 (hL.current_ready hn hi)).2
  obtain ⟨owner, hown⟩ := ne_none_iff_exists'.1 (h.owned _ ⟨((ready_iff _).1 hready).2.2.1, .inr ⟨hplace, hgot⟩⟩)
  have hbest := H.best_spec hL.rep (.waitq waitQ)
  have hvalid : H.Valid (timedOutPrio ceiling st.mutex (L (.waitq waitQ)).head?) := by
    have horig := h.sane.orig (by simp [hown])
    cases hhead : (L (.waitq waitQ)).head? with
    | none => exact horig
    | some x => exact newPrio_valid hceil (hL.valid _ (hL.waiting (List.mem_of_head? hhead)).1) horig
  obtain ⟨sched, hadj⟩ := adjustOwnerPrio_total hL hown (fun e => h.sane.idle.2 (by rw [hown, e])) hvalid
    fun v hv => hrekey L owner v _ hL hown hv
  have hexec : MutexOp.exec Q cfg waitQ ceiling st.mutex .goOn =
      some { st.mutex with sched := sched, place := update st.mutex.place st.mutex.sched.current .toGiveUp } := by
    simp only [MutexOp.exec, hplace, lockWoken, hgot, Bool.false_eq_true, if_false, hbest, bind_eq_bind, bind_some]
    cases hhead : (L (.waitq waitQ)).head? with
    | none =>
      rw [hhead] at hadj
      simp only [timedOutPrio] at hadj
      rw [hadj]
      rfl
    | some x =>
      rw [hhead] at hadj
      simp only [timedOutPrio] at hadj
      rw [hadj]
      rfl
  have heff := h.sane.effect hceil (fun o => by simp)
    (show MutexOp.Legal H cfg waitQ st.mutex .goOn from ⟨hn, by simp [hplace]⟩) hrekey hexec
  obtain ⟨o, ho, hprio⟩ := adjustOwnerPrio_prio hadj
  obtain rfl : owner = o := by simpa [hown] using ho
  refine ⟨owner, _, _, hown, by rw [SavedState.exec, hexec]; rfl,
    heff.timedOut_sameLock (.inl ⟨hplace, hgot⟩), hprio, ?_⟩
  rw [← h.saved owner hown]
  exact timedOutPrio_raised h.sane ⟨hplace, hgot⟩ hnone hbest

/-- **A timeout takes its thread out of the queue and nobody else** (timeout_q.h:83). -/
theorem handleOneExpiredThreadTimeout_waits {sched t : Sched N W σ} {L : QueueId W → List (Fin N)}
    (hL : SchedInv H cfg sched L) {x : Fin N} (ht : (sched.base x).isThreadTimeoutActive = true)
    (hres : handleOneExpiredThreadTimeout Q cfg sched x = some t) (y : Fin N) :
    t.WaitsOn waitQ y ↔ sched.WaitsOn waitQ y ∧ y ≠ x := by
  have hend := handleOneExpiredThreadTimeout_leaves hL ht hres
  by_cases hy : y = x
  · subst hy
    simp [Sched.WaitsOn, hend.2.1]
  · simp [Sched.WaitsOn, hend.1 y hy, hy]

end steps

/-! ## Runs -/

/-- In every state that a run from boot reaches by legal steps that meet `ok`: the expiry of a timeout leaves the
mutex and the other waiters alone, a thread that has timed out goes on as it should, and its way out of
`k_mutex_lock` changes nothing. -/
def TimesOutSafely (H : Q.Lawful) (cfg : Config N) (waitQ : W) (ceiling : ℤ)
    (ok : MutexState N W σ → MutexOp N W → Prop) : Prop :=
  ∀ st0 : SavedState N W σ, MutexBooted H cfg st0.mutex → ∀ ops,
    Runs.Along (SavedState.exec Q cfg waitQ ceiling) (fun st op => op.Legal H cfg waitQ st.mutex ∧
      ok st.mutex op) st0 ops →
    ∀ st, Runs.run (SavedState.exec Q cfg waitQ ceiling) st0 ops = some st →
      (∀ x st', MutexOp.Legal H cfg waitQ st.mutex (.sched (.expire x)) →
        st.exec Q cfg waitQ ceiling (.sched (.expire x)) = some st' →
        st'.mutex.mutex = st.mutex.mutex ∧ ∀ y, st'.mutex.sched.WaitsOn waitQ y ↔
        st.mutex.sched.WaitsOn waitQ y ∧ y ≠ x) ∧
      (st.mutex.TimedOut → ok st.mutex .goOn → st.Resumes Q cfg waitQ ceiling) ∧
      ∀ st', st.mutex.sched.nested = 0 → st.mutex.place st.mutex.sched.current = .toGiveUp → ok st.mutex .goOn →
        st.exec Q cfg waitQ ceiling .goOn = some st' → st.mutex.SameLock waitQ st'.mutex

theorem MutexBooted.resumeInv {st : SavedState N W σ} (h : MutexBooted H cfg st.mutex) : ResumeInv H cfg st where
  sane := ⟨⟨_, h.sched.inv⟩, ⟨h.place _, by simp [h.owner]⟩, fun ho => absurd h.owner ho⟩
  saved y hy := by simp [h.owner] at hy
  owned y hy := by simp [MutexState.Lingers, h.place, Place.isToPend] at hy

theorem timesOutSafely_of {ok : MutexState N W σ → MutexOp N W → Prop} (hceil : H.Valid ceiling)
    (hok : ∀ s op, op.Legal H cfg waitQ s → ok s op → s.NoneLeft Q waitQ ceiling op ∧ op.Rekeys H cfg s) :
    TimesOutSafely H cfg waitQ ceiling ok := by
  intro st0 hboot ops hall st hrun
  have hstep : ∀ st op st', ResumeInv H cfg st → op.Legal H cfg waitQ st.mutex ∧ ok st.mutex op →
      st.exec Q cfg waitQ ceiling op = some st' → ResumeInv H cfg st' := by
    intro st op st' h hop hs
    obtain ⟨hnone, hrekey⟩ := hok st.mutex op hop.1 hop.2
    exact h.exec hceil hop.1 hnone hrekey hs
  have hinv := Runs.run_inv hstep hboot.resumeInv hall hrun
  refine ⟨fun x st' hlegal hs => ?_, fun htimed hgo => ?_, fun st' hn hplace hgo hs => ?_⟩
  · obtain ⟨s', hexec, rfl⟩ := map_eq_some_iff.1 hs
    obtain ⟨sched, hsched, rfl⟩ := map_eq_some_iff.1 hexec
    obtain ⟨L, hL⟩ := hinv.sane.sched
    exact ⟨rfl, handleOneExpiredThreadTimeout_waits hL hlegal.1.2.2 hsched⟩
  · obtain ⟨hnone, hrekey⟩ := hok st.mutex .goOn ⟨htimed.1, by simp [htimed.2.1]⟩ hgo
    exact hinv.resumes hceil htimed hnone hrekey
  · obtain ⟨s', hexec, rfl⟩ := map_eq_some_iff.1 hs
    have hlegal : MutexOp.Legal H cfg waitQ st.mutex .goOn := ⟨hn, by simp [hplace]⟩
    exact (hinv.sane.effect hceil (fun o => by simp) hlegal
      (hok st.mutex .goOn hlegal hgo).2 hexec).timedOut_sameLock (.inr hplace)

/-- **The time-out path of `k_mutex_lock` is safe** (mutex.c:161-262), under each choice of queues, in every run in
which `NoneLeft` holds; and for trees, in which no thread changes its priority while it waits in one. -/
theorem mutex_timesOutSafely (N : Nat) (W : Type) [DecidableEq W] (hN : N ≤ 2 ^ 32) (cfg : Config N)
    (waitQ : W) (ceiling highest : ℤ) (hceil : (multiqLawful N W highest).Valid ceiling) :
    TimesOutSafely (dumbLawful N W) cfg waitQ ceiling (MutexState.NoneLeft (dumbQueues N W) waitQ ceiling) ∧
      TimesOutSafely (multiqLawful N W highest) cfg waitQ ceiling
      (MutexState.NoneLeft (multiqQueues N W highest) waitQ ceiling) ∧
      TimesOutSafely (scalableLawful W hN) cfg waitQ ceiling
        (fun s op => s.NoneLeft (scalableQueues N W) waitQ ceiling op ∧ s.OwnerAwake op) := by
  refine ⟨?_, ?_, ?_⟩
  · exact timesOutSafely_of trivial fun s op hlegal hok => ⟨hok, op.rekeys_of_lists (fun _ _ _ _ => trivial) hlegal⟩
  · exact timesOutSafely_of hceil fun s op hlegal hok => ⟨hok, op.rekeys_of_lists (fun _ _ _ _ => trivial) hlegal⟩
  · exact timesOutSafely_of trivial fun s op hlegal hok => ⟨hok.1, op.rekeys_of_awake (fun h => h) hlegal hok.2⟩

instance MutexState.decidableLingers (s : MutexState N W σ) (y : Fin N) : Decidable (s.Lingers y) :=
  inferInstanceAs (Decidable (_ ∧ (_ ∨ _ ∧ _)))

instance MutexState.decidableHeadFirst (Q : Queues N W σ) (waitQ : W) (ceiling : ℤ) (s : MutexState N W σ) :
    Decidable (s.HeadFirst Q waitQ ceiling) :=
  inferInstanceAs (Decidable (∀ y, (s.sched.WaitsOn waitQ y → _ ∧ ∀ x, (_ → s.sched.prio x ≤ s.sched.prio y))))

instance MutexState.decidableNoneLeft (Q : Queues N W σ) (waitQ : W) (ceiling : ℤ) (s : MutexState N W σ)
    (op : MutexOp N W) :
    Decidable (s.NoneLeft Q waitQ ceiling op) := by
  induction op using MutexOp.casesOn <;> dsimp only [MutexState.NoneLeft] <;> infer_instance

instance MutexState.decidableTimedOut (s : MutexState N W σ) : Decidable s.TimedOut :=
    inferInstanceAs (Decidable (_ ∧ _ ∧ _))

def bootSaved : SavedState 4 Unit (Links (QNode (QueueId Unit) 4)) := ⟨bootMutex, fun _ => 0⟩

/-- Thread 1 has the mutex; thread 3 waits for it until its timeout expires, and goes on while thread 1 sleeps. -/
def ownerSleeps : List (MutexOp 4 Unit) :=
  [.sched (.start 1), .lock (-1), .sched (.start 3), .lock 5, .goOn, .sched .isrEnter, .sched (.expire 3),
    .sched .isrExit, .sched (.sleep 1)]

theorem mutex_timesOutSafely_ownerSleeps :
    ∃ st, Runs.run (SavedState.exec (dumbQueues 4 Unit) (bootConfig 4) () 0) bootSaved ownerSleeps = some st ∧
    st.mutex.TimedOut ∧ st.Resumes (dumbQueues 4 Unit) (bootConfig 4) () 0 := by
  refine Runs.exists_end (P := fun st => st.mutex.TimedOut ∧ st.mutex.NoneLeft (dumbQueues 4 Unit) () 0 .goOn)
    (by decide +kernel) ?_
  rintro st hrun ⟨htimed, hnone⟩
  have hsafe := (mutex_timesOutSafely 4 Unit (by decide) (bootConfig 4) () 0 (-16)
    ⟨16, by decide⟩).1 _ bootMutex_booted ownerSleeps
    (by decide +kernel) st hrun
  exact ⟨htimed, hsafe.2.1 htimed hnone⟩

/-- **There is no owner to write to** (mutex.c:110, :187-194). Thread 3 has the mutex and sleeps; thread 1 waits
for it. Both timeouts expire in one interrupt. Thread 3 runs first and releases the mutex, for which nobody waits
any more, so that `owner` is NULL; when thread 1 goes on, `adjust_owner_prio` follows it. -/
theorem timedOut_follows_null :
    Runs.Along (SavedState.exec (dumbQueues 4 Unit) (bootConfig 4) () 0)
    (fun st op => op.Legal (dumbLawful 4 Unit) (bootConfig 4) () st.mutex)
        bootSaved [.sched (.start 3), .lock (-1), .sched (.sleep 1), .sched (.start 1), .lock 5, .goOn,
          .sched .isrEnter, .sched (.expire 3),
          .sched (.expire 1), .sched .isrExit, .unlock, .goOn, .sched (.sleep 1)] ∧
      ∃ st, Runs.run (SavedState.exec (dumbQueues 4 Unit) (bootConfig 4) () 0) bootSaved
          [.sched (.start 3), .lock (-1), .sched (.sleep 1), .sched (.start 1), .lock 5, .goOn,
            .sched .isrEnter, .sched (.expire 3),
            .sched (.expire 1), .sched .isrExit, .unlock, .goOn, .sched (.sleep 1)] = some st ∧
        st.mutex.TimedOut ∧ st.mutex.mutex.owner = none ∧ ¬ st.Resumes (dumbQueues 4 Unit) (bootConfig 4) () 0 := by
  refine ⟨by decide +kernel, Runs.exists_end (P := fun st => st.mutex.TimedOut ∧ st.mutex.mutex.owner = none)
    (by decide +kernel) ?_⟩
  rintro st - ⟨htimed, hnone⟩
  refine ⟨htimed, hnone, fun hres => ?_⟩
  obtain ⟨owner, -, -, hown, -⟩ := hres.owner
  rw [hnone] at hown
  cases hown

end Zephyr
