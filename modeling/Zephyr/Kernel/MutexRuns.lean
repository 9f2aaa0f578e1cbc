import Zephyr.Kernel.MutexSteps
/-!
# A mutex under every run of threads

What keeps mutual exclusion is a ledger between the mutex and the threads (`Ledger`): the count of the mutex
is what its owner holds, plus one if the owner has been woken with the mutex and has not returned yet;
nobody else holds anything; and while a thread is about to hand the mutex over, the count is 0. The last
is what a `k_mutex_lock` in that moment destroys. The scheduler contributes that a thread in the wait queue
of the mutex stands in `_pend_current_thread`, and that a thread that runs is not in the queue.
-/
namespace Zephyr

open Ring Sched Function

variable {N : Nat} {W σ : Type} [DecidableEq W]

/-! ## The ledger -/

structure Ledger (idle : Fin N) (mutex : KMutex N) (place : Fin N → Place) (got : Fin N → Bool)
    (held : Fin N → Nat) : Prop where
  own : ∀ y, mutex.owner = some y → mutex.lockCount = held y + (got y).toNat
  others : ∀ y, mutex.owner ≠ some y → held y = 0 ∧ got y = false
  handOver : ∀ y, place y = .toHandOver → mutex.owner = some y ∧ mutex.lockCount = 0
  woken : ∀ y, got y = true → place y = .pended
  inside : ∀ y, place y ≠ .outside → held y = 0
  idle : place idle = .outside ∧ mutex.owner ≠ some idle

namespace Ledger

variable {idle t n : Fin N} {mutex : KMutex N} {place : Fin N → Place} {got : Fin N → Bool}
    {held : Fin N → Nat} {p : Place} {k : ℤ}

section

variable (h : Ledger idle mutex place got held)

include h

theorem got_false (ht : place t ≠ .pended) : got t = false :=
  Bool.eq_false_iff.2 fun hg => ht (h.woken t hg)

/-- A mutex without a count is held by no one. -/
theorem unheld (hc : mutex.lockCount = 0) (y : Fin N) : held y = 0 ∧ got y = false := by
  by_cases hy : mutex.owner = some y
  · have := h.own y hy
    rw [hc] at this
    cases hg : got y with
    | false => exact ⟨by simp [hg] at this; omega, rfl⟩
    | true => simp [hg] at this
  · exact h.others y hy

theorem owner_of_held (ht : 0 < held t) : mutex.owner = some t ∧ mutex.lockCount = held t := by
  have hown : mutex.owner = some t := by
    by_contra hne
    have := (h.others t hne).1
    omega
  have hout : place t = .outside := by
    by_contra hne
    have := h.inside t hne
    omega
  refine ⟨hown, ?_⟩
  rw [h.own t hown, h.got_false (by simp [hout])]
  rfl

/-- A thread goes on to another place, not to hand the mutex over. -/
theorem move (ht : t ≠ idle) (hp : p ≠ .toHandOver) (hheld : p ≠ .outside → held t = 0)
    (hgot : got t = true → p = .pended) : Ledger idle mutex (update place t p) got held where
  own := h.own
  others := h.others
  handOver y hy := by
    by_cases hyt : y = t
    · subst hyt; exact absurd (by simpa using hy) hp
    · exact h.handOver y (by simpa [hyt] using hy)
  woken y hy := by
    by_cases hyt : y = t
    · subst hyt; simpa using hgot hy
    · simpa [hyt] using h.woken y hy
  inside y hy := by
    by_cases hyt : y = t
    · subst hyt; exact hheld (by simpa using hy)
    · exact h.inside y (by simpa [hyt] using hy)
  idle := ⟨by rw [update_of_ne ht.symm]; exact h.idle.1, h.idle.2⟩

/-- The way of `k_mutex_lock` without waiting (mutex.c:127). -/
theorem take (ht : t ≠ idle) (hout : place t = .outside)
    (hfast : mutex.lockCount = 0 ∨ mutex.owner = some t) (hfree : mutex.lockCount = 0 → ∀ u, place u ≠ .toHandOver)
    (hwrap : mutex.owner = some t → mutex.lockCount + 1 < 2 ^ 32) :
    Ledger idle ⟨some t, (mutex.lockCount + 1) % 2 ^ 32, k⟩ place got (update held t (held t + 1)) := by
  have hgot : got t = false := h.got_false (by simp [hout])
  -- either way the count is what `t` holds
  have hcount : mutex.lockCount = held t := by
    rcases hfast with hc | hown
    · rw [hc, (h.unheld hc t).1]
    · rw [h.own t hown, hgot]; rfl
  have hothers : ∀ y, y ≠ t → held y = 0 ∧ got y = false := by
    intro y hy
    rcases hfast with hc | hown
    · exact h.unheld hc y
    · exact h.others y (by rw [hown]; simpa using Ne.symm hy)
  have hmod : (mutex.lockCount + 1) % 2 ^ 32 = held t + 1 := by
    rcases hfast with hc | hown
    · rw [← hcount, hc]; rfl
    · rw [← hcount, Nat.mod_eq_of_lt (hwrap hown)]
  refine ⟨?_, ?_, ?_, h.woken, ?_, h.idle.1, by simpa using ht⟩
  · rintro y ⟨⟩
    show (mutex.lockCount + 1) % 2 ^ 32 = _
    rw [hmod]
    simp [hgot]
  · intro y hy
    have hyt : y ≠ t := fun e => hy (by rw [e])
    simpa [hyt] using hothers y hyt
  · intro y hy
    rcases hfast with hc | hown
    · exact absurd hy (hfree hc y)
    · -- a thread that hands the mutex over is its owner, and `t` is outside
      obtain ⟨hy', -⟩ := h.handOver y hy
      rw [hown] at hy'
      cases hy'
      simp [hout] at hy
  · intro y hy
    have hyt : y ≠ t := by rintro rfl; exact hy hout
    simpa [hyt] using h.inside y hy

/-- A thread returns from `_pend_current_thread` with the mutex (mutex.c:176). -/
theorem wake (ht : t ≠ idle) (hgot : got t = true) :
    Ledger idle mutex (update place t .outside) (update got t false) (update held t (held t + 1)) := by
  have hown : mutex.owner = some t := by
    by_contra hne
    simp [(h.others t hne).2] at hgot
  refine ⟨fun y hy => ?_, fun y hy => ?_, fun y hy => ?_, fun y hy => ?_, fun y hy => ?_, ?_, h.idle.2⟩
  · obtain rfl : t = y := by simpa [hown] using hy
    simp [h.own t hown, hgot]
  · have hyt : y ≠ t := fun e => hy (by rw [e, hown])
    simpa [hyt] using h.others y hy
  · have hyt : y ≠ t := by rintro rfl; simp at hy
    exact h.handOver y (by simpa [hyt] using hy)
  · have hyt : y ≠ t := by rintro rfl; simp at hy
    simpa [hyt] using h.woken y (by simpa [hyt] using hy)
  · have hyt : y ≠ t := by rintro rfl; simp at hy
    simpa [hyt] using h.inside y (by simpa [hyt] using hy)
  · rw [update_of_ne ht.symm]; exact h.idle.1

/-- `k_mutex_unlock` takes one off the count (mutex.c:224) and goes to `p`. -/
theorem drop (ht : t ≠ idle) (hout : place t = .outside) (hown : mutex.owner = some t)
    (hp : p = if mutex.lockCount - 1 = 0 then .toHandOver else .outside) :
    Ledger idle { mutex with lockCount := mutex.lockCount - 1 } (update place t p) got
    (update held t (held t - 1)) := by
  have hgot : got t = false := h.got_false (by simp [hout])
  have hcount : mutex.lockCount = held t := by rw [h.own t hown, hgot]; rfl
  refine ⟨fun y hy => ?_, fun y hy => ?_, fun y hy => ?_, fun y hy => ?_, fun y hy => ?_, ?_, h.idle.2⟩
  · obtain rfl : t = y := by simpa [hown] using hy
    simp [hgot, hcount]
  · have hyt : y ≠ t := fun e => hy (by rw [e]; exact hown)
    simpa [hyt] using h.others y hy
  · by_cases hyt : y = t
    · subst hyt
      refine ⟨hown, ?_⟩
      by_contra hne
      rw [update_self, hp, if_neg hne] at hy
      simp at hy
    · obtain ⟨hy', -⟩ := h.handOver y (by simpa [hyt] using hy)
      exact absurd (by simpa [hown] using hy') (Ne.symm hyt)
  · have hyt : y ≠ t := by rintro rfl; simp [hgot] at hy
    simpa [hyt] using h.woken y hy
  · by_cases hyt : y = t
    · subst hyt
      by_cases hc : mutex.lockCount - 1 = 0
      · simp [← hcount, hc]
      · rw [update_self, hp, if_neg hc] at hy
        simp at hy
    · simpa [hyt] using h.inside y (by simpa [hyt] using hy)
  · rw [update_of_ne ht.symm]; exact h.idle.1

/-- A thread hands the mutex over (mutex.c:239), to the thread `n` that waits for it or to no one. -/
theorem pass (ht : place t = .toHandOver) (hn : place n = .pended) :
    Ledger idle ⟨some n, (mutex.lockCount + 1) % 2 ^ 32, k⟩ (update place t .outside) (update got n true) held := by
  obtain ⟨hown, hc⟩ := h.handOver t ht
  have hnt : n ≠ t := by rintro rfl; simp [ht] at hn
  have hti : t ≠ idle := by rintro rfl; simp [h.idle.1] at ht
  have hni : n ≠ idle := by rintro rfl; simp [h.idle.1] at hn
  refine ⟨?_, fun y hy => ?_, fun y hy => ?_, fun y hy => ?_, fun y hy => ?_, ?_, by simpa using hni⟩
  · rintro y ⟨⟩
    simp [hc, (h.unheld hc n).1]
  · have hyn : y ≠ n := fun e => hy (by rw [e])
    simpa [hyn] using h.unheld hc y
  · have hyt : y ≠ t := by rintro rfl; simp at hy
    obtain ⟨hy', -⟩ := h.handOver y (by simpa [hyt] using hy)
    exact absurd (by simpa [hown] using hy') (Ne.symm hyt)
  · obtain rfl : n = y := by
      by_contra hne
      simp [Ne.symm hne, (h.unheld hc y).2] at hy
    simpa [hnt] using hn
  · exact (h.unheld hc y).1
  · rw [update_of_ne hti.symm]; exact h.idle.1

theorem clear (ht : place t = .toHandOver) :
    Ledger idle { mutex with owner := none } (update place t .outside) got held := by
  obtain ⟨hown, hc⟩ := h.handOver t ht
  have hti : t ≠ idle := by rintro rfl; simp [h.idle.1] at ht
  refine ⟨by simp, fun y _ => h.unheld hc y, fun y hy => ?_, fun y hy => ?_, fun y _ => (h.unheld hc y).1, ?_, by simp⟩
  · have hyt : y ≠ t := by rintro rfl; simp at hy
    obtain ⟨hy', -⟩ := h.handOver y (by simpa [hyt] using hy)
    exact absurd (by simpa [hown] using hy') (Ne.symm hyt)
  · simp [(h.unheld hc y).2] at hy
  · rw [update_of_ne hti.symm]; exact h.idle.1

end

end Ledger

/-! ## Each step -/

variable {Q : Queues N W σ} {H : Q.Lawful} {cfg : Config N} {waitQ : W} {ceiling : ℤ}

structure MutexInv (H : Q.Lawful) (cfg : Config N) (waitQ : W) (s : MutexState N W σ) : Prop where
  sched : ∃ L, SchedInv H cfg s.sched L
  waiting : ∀ y, s.sched.WaitsOn waitQ y → s.place y = .pended ∧ s.got y = false
  ledger : Ledger cfg.idle s.mutex s.place s.got s.held
  orig : s.mutex.owner ≠ none → H.Valid s.mutex.ownerOrigPrio

variable {s s' : MutexState N W σ}

theorem MutexInv.exclusive (h : MutexInv H cfg waitQ s) : s.Exclusive := by
  refine ⟨fun t u ht hu => ?_, fun t ht => h.ledger.owner_of_held ht⟩
  have hown := (h.ledger.owner_of_held ht).1
  rw [(h.ledger.owner_of_held hu).1] at hown
  exact (Option.some.inj hown).symm

theorem MutexInv.sane (h : MutexInv H cfg waitQ s) : MutexSane H cfg s := ⟨h.sched, h.ledger.idle, h.orig⟩

variable {op : MutexOp N W}

/-- The books after a step of the thread that runs. -/
theorem MutexInv.ledger_effect (h : MutexInv H cfg waitQ s) (hi : s.sched.current ≠ cfg.idle) (hfree : s.TakesFree op)
    (heff : MutexEffect H cfg waitQ ceiling s op s') : Ledger cfg.idle s'.mutex s'.place s'.got s'.held := by
  cases heff with
  | take place fast _ _ => exact h.ledger.take hi place fast hfree.1 hfree.2
  | busy => exact h.ledger
  | boost place _ own other _ _ =>
    obtain ⟨hheld, hgot⟩ := h.ledger.others s.sched.current (by rw [own]; simpa using other)
    exact h.ledger.move hi (by simp) (fun _ => hheld) fun hg => by simp [hgot] at hg
  | pend place _ _ _ _ =>
    have hgot : s.got s.sched.current = false := h.ledger.got_false (by simp [place])
    have hsame : update s.got s.sched.current false = s.got := by rw [← hgot]; exact update_eq_self _ _
    dsimp only
    rw [hsame]
    exact h.ledger.move hi (by simp) (fun _ => h.ledger.inside _ (by simp [place])) fun _ => rfl
  | granted _ got _ _ => exact h.ledger.wake hi got
  | timedOut place got _ _ _ _ _ =>
    exact h.ledger.move hi (by simp) (fun _ => h.ledger.inside _ (by simp [place])) fun hg => by simp [got] at hg
  | giveUp place _ _ _ =>
    have hgot : s.got s.sched.current = false := h.ledger.got_false (by simp [place])
    exact h.ledger.move hi (by simp) (fun hne => absurd rfl hne) fun hg => by simp [hgot] at hg
  | drop place own count _ _ =>
    have hl := h.ledger.drop hi place own (p := .outside) (by rw [if_neg count])
    rwa [← place, update_eq_self] at hl
  | release place own count _ _ => exact h.ledger.drop hi place own (by rw [if_pos count])
  | clear place _ _ _ => exact h.ledger.clear place
  | pass place _ waited _ _ _ => exact h.ledger.pass place (h.waiting _ waited).1

/-- A thread that the step does not give the mutex has what it had. -/
theorem MutexEffect.got_of_waits (heff : MutexEffect H cfg waitQ ceiling s op s') {y : Fin N} (hy : y ≠ s.sched.current)
    (hw : s'.sched.WaitsOn waitQ y) : s'.got y = s.got y := by
  cases heff with
  | pend | granted => exact update_of_ne hy _ _
  | pass _ _ _ _ left _ => exact update_of_ne (by rintro rfl; exact left hw) _ _
  | take | busy | boost | timedOut | giveUp | drop | release | clear => rfl

theorem MutexInv.exec (hceil : H.Valid ceiling) (h : MutexInv H cfg waitQ s) (hlegal : op.Legal H cfg waitQ s)
    (hfree : s.TakesFree op) (hrekey : op.Rekeys H cfg s) (hs : op.exec Q cfg waitQ ceiling s = some s') :
    MutexInv H cfg waitQ s' := by
  by_cases hop : ∃ o, op = .sched o
  · obtain ⟨op, rfl⟩ := hop
    obtain ⟨sched, hexec, rfl⟩ := Option.map_eq_some_iff.1 hs
    obtain ⟨hsane, hcalm⟩ := h.sane.sched_exec hlegal.1 hrekey hlegal.2.2.1 hexec
    exact ⟨hsane.sched, fun y hy => h.waiting y ((hcalm sched rfl).2 y hy), h.ledger, h.orig⟩
  · have hop' : ∀ o, op ≠ .sched o := fun o e => hop ⟨o, e⟩
    have heff := h.sane.effect hceil hop' hlegal hrekey hs
    have hi := hlegal.current_ne_idle h.sane hop'
    refine ⟨heff.inv, fun y hy => ?_, h.ledger_effect hi hfree heff, (heff.sane h.sane hi).orig⟩
    rcases heff.onSched.2.2 _ y hy with hold | ⟨-, -, -, hnew⟩
    · have hne : y ≠ s.sched.current := by
        rintro rfl
        obtain ⟨L, hL⟩ := h.sched
        exact hL.current_not_waits (hlegal.nested_eq hop') hold
      rw [heff.place_of_ne hne, heff.got_of_waits hne hy]
      exact h.waiting y hold
    · exact hnew

/-! ## Runs -/

theorem MutexBooted.inv (h : MutexBooted H cfg s) : MutexInv H cfg waitQ s where
  sched := ⟨_, h.sched.inv⟩
  waiting y hy := by
    obtain ⟨hp, -⟩ := hy
    simp [(h.sched.base y).1] at hp
  ledger :=
    { own := by simp [h.owner]
      others := fun y _ => ⟨h.held y, h.got y⟩
      handOver := fun y hy => by simp [h.place y] at hy
      woken := fun y hy => by simp [h.got y] at hy
      inside := fun y _ => h.held y
      idle := ⟨h.place _, by simp [h.owner]⟩ }
  orig ho := absurd h.owner ho

/-- In every state that a run from boot reaches by legal steps that meet `ok`, the mutex excludes. -/
def KeepsExclusive (H : Q.Lawful) (cfg : Config N) (waitQ : W) (ceiling : ℤ)
    (ok : MutexState N W σ → MutexOp N W → Prop) : Prop :=
  ∀ s0, MutexBooted H cfg s0 → ∀ ops, Runs.Along (MutexOp.exec Q cfg waitQ ceiling)
  (fun s op => op.Legal H cfg waitQ s ∧ ok s op) s0 ops →
    ∀ s, Runs.run (MutexOp.exec Q cfg waitQ ceiling) s0 ops = some s → s.Exclusive

theorem keepsExclusive_of {ok : MutexState N W σ → MutexOp N W → Prop} (hceil : H.Valid ceiling)
    (hok : ∀ s op, op.Legal H cfg waitQ s → ok s op → s.TakesFree op ∧ op.Rekeys H cfg s) :
    KeepsExclusive H cfg waitQ ceiling ok := by
  intro s0 hboot ops hall s hrun
  have hstep : ∀ s op s', MutexInv H cfg waitQ s → op.Legal H cfg waitQ s ∧ ok s op →
    op.exec Q cfg waitQ ceiling s = some s' → MutexInv H cfg waitQ s' := by
    intro s op s' h hop hs
    obtain ⟨hfree, hrekey⟩ := hok s op hop.1 hop.2
    exact h.exec hceil hop.1 hfree hrekey hs
  exact (Runs.run_inv hstep hboot.inv hall hrun).exclusive

/-- Lists take any new priority. -/
theorem MutexOp.rekeys_of_lists (hrekey : ∀ prio l x k, H.RekeyOk prio l x k) (hlegal : op.Legal H cfg waitQ s) :
    op.Rekeys H cfg s := by
  cases op with
  | sched op => exact fun L _ => op.fine_of hlegal.2.1 fun _ _ _ _ _ => hrekey _ _ _ _
  | lock timeout => exact fun _ _ _ _ _ _ _ => hrekey _ _ _ _
  | unlock => trivial
  | goOn => exact fun _ _ _ _ _ _ _ => hrekey _ _ _ _

/-- What trees need: pending threads keep their places, and the owner is not pending when its priority is adjusted. -/
def MutexState.OwnerAwake (s : MutexState N W σ) : MutexOp N W → Prop
  | .sched op => KeepsPlaces s.sched op
  | .lock _ | .goOn => ∀ o, s.mutex.owner = some o → (s.sched.base o).pending = false
  | .unlock => True

theorem MutexOp.rekeys_of_awake (hplace : ∀ {prio l x k}, StableQueue.KeepsPlace prio l x k → H.RekeyOk prio l x k)
    (hlegal : op.Legal H cfg waitQ s) (hawake : s.OwnerAwake op) : op.Rekeys H cfg s := by
  have howner : (∀ o, s.mutex.owner = some o → (s.sched.base o).pending = false) → RekeysOwner H cfg s := by
    intro h L o v k hL ho hv
    have hp := (hL.fits o).pending.2 ⟨v, hv⟩
    simp [h o ho] at hp
  cases op with
  | sched op =>
    refine fun L hL => op.fine_of hlegal.2.1 ?_
    rintro x k v rfl hv
    exact hplace (hawake.keepsPlace hL hv)
  | lock timeout => exact howner hawake
  | unlock => trivial
  | goOn => exact howner hawake

/-- **Mutual exclusion** (mutex.c:121-263), under each choice of queues, in every run in which no thread takes the mutex
while another one is about to hand it over and `lock_count` does not wrap; and for trees, in which no thread changes its
priority while it waits in one. -/
theorem mutex_excludes (N : Nat) (W : Type) [DecidableEq W] (hN : N ≤ 2 ^ 32) (cfg : Config N) (waitQ : W)
    (ceiling highest : ℤ) (hceil : (multiqLawful N W highest).Valid ceiling) :
    KeepsExclusive (dumbLawful N W) cfg waitQ ceiling MutexState.TakesFree ∧
      KeepsExclusive (multiqLawful N W highest) cfg waitQ ceiling MutexState.TakesFree ∧
      KeepsExclusive (scalableLawful W hN) cfg waitQ ceiling (fun s op => s.TakesFree op ∧ s.OwnerAwake op) := by
  refine ⟨?_, ?_, ?_⟩
  · exact keepsExclusive_of trivial fun s op hlegal hok => ⟨hok, op.rekeys_of_lists (fun _ _ _ _ => trivial) hlegal⟩
  · exact keepsExclusive_of hceil fun s op hlegal hok => ⟨hok, op.rekeys_of_lists (fun _ _ _ _ => trivial) hlegal⟩
  · exact keepsExclusive_of trivial fun s op hlegal hok => ⟨hok.1, op.rekeys_of_awake (fun h => h) hlegal hok.2⟩

/-- The idle thread and threads of the priorities 10, 5 and 1. -/
def lowToHigh : Fin 4 → ℤ
  | 0 => 15
  | 1 => 10
  | 2 => 5
  | 3 => 1

def bootMutex : MutexState 4 Unit (Links (QNode (QueueId Unit) 4)) :=
  ⟨bootSched 4 lowToHigh, ⟨none, 0, 0⟩, fun _ => .outside, fun _ => false, fun _ => 0⟩

theorem bootMutex_booted : MutexBooted (dumbLawful 4 Unit) (bootConfig 4) bootMutex :=
  ⟨bootSched_booted 4 _, rfl, rfl, fun _ => rfl, fun _ => rfl, fun _ => rfl⟩

/-- Thread 1 has the mutex, and thread 3 waits for it and has raised the priority of thread 1 to its own. -/
def oneWaits : List (MutexOp 4 Unit) := [.sched (.start 1), .lock (-1), .sched (.start 3), .lock (-1), .goOn]

theorem mutex_excludes_handedOver :
    (Runs.run (MutexOp.exec (dumbQueues 4 Unit) (bootConfig 4) () 0) bootMutex
      (oneWaits ++ [.unlock, .goOn, .goOn])).map (fun s => (s.mutex.owner, s.held 1, s.held 3)) = some (some 3, 0, 1) ∧
      ∀ s, Runs.run (MutexOp.exec (dumbQueues 4 Unit) (bootConfig 4) () 0) bootMutex
      (oneWaits ++ [.unlock, .goOn, .goOn]) = some s →
        s.Exclusive :=
  ⟨by decide +kernel,
    (mutex_excludes 4 Unit (by decide) (bootConfig 4) () 0 (-16) ⟨16, by decide⟩).1 _ bootMutex_booted _
    (by decide +kernel)⟩

/-- **The mutex is taken while it is handed over** (mutex.c:224-237). Thread 1 has the mutex with the priority of
thread 3, which waits for it; thread 2 is ready. Thread 1 unlocks: the count is 0, and back at its own priority it is
preempted by thread 2. Thread 2 locks the mutex, for its count is 0, and sleeps. Thread 1 goes on and gives the mutex
to thread 3, which returns from `k_mutex_lock`: both have it, and the count is 2. -/
theorem taken_twice :
    Runs.Along (MutexOp.exec (dumbQueues 4 Unit) (bootConfig 4) () 0)
    (fun s op => op.Legal (dumbLawful 4 Unit) (bootConfig 4) () s) bootMutex
        (oneWaits ++ [.sched (.start 2), .unlock, .lock (-1), .sched (.sleep 1), .goOn, .goOn]) ∧
      ∃ s, Runs.run (MutexOp.exec (dumbQueues 4 Unit) (bootConfig 4) () 0) bootMutex
          (oneWaits ++ [.sched (.start 2), .unlock, .lock (-1), .sched (.sleep 1), .goOn, .goOn]) = some s ∧
        s.held 2 = 1 ∧ s.held 3 = 1 ∧ s.mutex.owner = some 3 ∧ s.mutex.lockCount = 2 ∧ ¬ s.Exclusive := by
  refine ⟨by decide +kernel, Runs.exists_end (P := fun s => s.held 2 = 1 ∧ s.held 3 = 1 ∧
    s.mutex.owner = some 3 ∧ s.mutex.lockCount = 2)
    (by decide +kernel) ?_⟩
  rintro s - ⟨h2, h3, hown, hcount⟩
  refine ⟨h2, h3, hown, hcount, fun hex => ?_⟩
  have := hex.1 2 3 (by omega) (by omega)
  simp at this

end Zephyr
