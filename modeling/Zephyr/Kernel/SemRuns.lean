import Zephyr.Kernel.Sem
/-!
# What a semaphore adds up to

Every unit that was given is in `count`, with a thread that has returned 0 or is about to, or was given at the
limit (`SemInv.balance`). A give between the fetch of a timeout and its handler wakes a thread that the handler
then takes out of the wait queue once more. A tree does not find it there, and the run queue holds it twice
(`given_twice`); and a timeout that is the last one of the expired is aborted as if the head of the list were behind it.
-/
namespace Zephyr

open Sched StableQueue Tally Function List Option ThreadBase

variable {N : Nat} {W σ : Type} [DecidableEq W]

variable {Q : Queues N W σ} {H : Q.Lawful} {cfg : Config N} {waitQ : W}

section sched

variable {s : Sched N W σ} {L : QueueId W → List (Fin N)} {x : Fin N} {w : W}

/-- The first thread of a wait queue is made ready. -/
theorem served_spec (h : SchedInv H cfg s L) (hhead : (L (.waitq w)).head? = some x) :
    ∃ s1 s', unpendFirstThread Q s w = some (s1, some x) ∧ readyThread Q cfg s1 x = some s' ∧
    (∃ L', SchedInv H cfg s' L') ∧
      (∀ y, s'.WaitsOn w y → y ≠ x ∧ s.WaitsOn w y) ∧ (∀ y, y ≠ x → s'.base y = s.base y) ∧
      ∃ b, s'.base x = { s.base x with pending := false, timeout := none, queued := b } := by
  obtain ⟨q, s', L', hun, hready, hinv, hL, -, hsame⟩ := unpend_spec h (List.mem_of_head? hhead)
  refine ⟨_, s', ?_, hready, ⟨L', hinv⟩, fun y hy => ?_, fun y hy => ?_, (s'.base x).queued, ?_⟩
  · simp only [unpendFirstThread, H.best_spec h.rep, hhead, hun, bind_eq_bind, bind_some]
  · have hmem := hinv.waitsOn_iff.1 hy
    rw [hL, update_self, (H.nodup h.rep _).mem_erase_iff] at hmem
    exact ⟨hmem.1, h.waitsOn_iff.2 hmem.2⟩
  · rw [hsame.base y hy, setBase_ne hy, unpended, setBase_ne hy]
  · have hself := hsame.self
    simp only [setBase_self, unpended, setTimeout, markAsNotPending] at hself
    rw [ThreadBase.mk.injEq] at hself ⊢
    exact ⟨hself.1, hself.2.1, hself.2.2.1, hself.2.2.2.1, hself.2.2.2.2.1, rfl, hself.2.2.2.2.2.2⟩

end sched

/-! ## What stays true -/

structure SemInv (H : Q.Lawful) (cfg : Config N) (waitQ : W) (k : Nat) (s : SemState N W σ) : Prop where
  sched : ∃ L, SchedInv H cfg s.sched L
  count_le : s.count ≤ s.limit
  waits : ∀ t, s.sched.WaitsOn waitQ t → s.taking t = true ∧ s.swapRetval t ≠ 0 ∧ s.count = 0
  timeouts : ∀ t wq, (s.sched.base t).timeout = some wq → s.timeoutWaitQ t = wq
  balance : s.takes + s.handed + s.count + s.wasted + s.discarded = k + s.gives

/-- A step goes through and keeps the invariant; only a reset discards anything. -/
def SemOp.Keeps (H : Q.Lawful) (cfg : Config N) (waitQ : W) (k : Nat) (s : SemState N W σ) (op : SemOp N W) : Prop :=
  ∃ s', op.exec Q cfg waitQ s = some s' ∧ SemInv H cfg waitQ k s' ∧ (op.isReset = false → s'.discarded = s.discarded)

omit [DecidableEq W] in
theorem noteTimeouts_timeouts (s : SemState N W σ) (t : Fin N) (wq : Option W)
    (h : (s.noteTimeouts.sched.base t).timeout = some wq) :
    s.noteTimeouts.timeoutWaitQ t = wq := by
  have hsome : (s.sched.base t).timeout = some wq := h
  simp [SemState.noteTimeouts, hsome]

section steps

variable {s : SemState N W σ} {k : Nat}

section

variable (h : SemInv H cfg waitQ k s)

include h

/-- Threads and interrupts do something else. -/
theorem SemInv.sched_step {announcing : Bool} {op : SchedOp N W} {ticks : Nat}
    (hlegal : s.Legal H cfg waitQ announcing (.sched op ticks))
    (hfine : ∀ L, SchedInv H cfg s.sched L → op.Fine H s.sched L) : (SemOp.sched op ticks).Keeps H cfg waitQ k s := by
  obtain ⟨hop, -, havoid, -⟩ := hlegal
  obtain ⟨L, hL⟩ := h.sched
  obtain ⟨sched, L', hexec, hinv, -⟩ := exec_keeps hL hop (hfine L hL)
  exact ⟨{ s with sched := sched }.noteTimeouts, by simp [SemOp.exec, hexec], ⟨⟨L', hinv⟩, h.count_le,
    fun t ht => h.waits t (exec_staysOff havoid sched hexec ht), noteTimeouts_timeouts _, h.balance⟩, fun _ => rfl⟩

/-- A give that finds somebody waiting. -/
theorem SemInv.give_serves {L : QueueId W → List (Fin N)} (hL : SchedInv H cfg s.sched L) {x : Fin N}
    (hhead : (L (.waitq waitQ)).head? = some x) : SemOp.give.Keeps H cfg waitQ k s := by
  obtain ⟨s1, sched, hun, hready, ⟨L', hinv⟩, hoff, hother, ⟨b, hself⟩⟩ := served_spec hL hhead
  have hx : s.sched.WaitsOn waitQ x := hL.waitsOn_iff.2 (List.mem_of_head? hhead)
  obtain ⟨htaking, hretval, hcount⟩ := h.waits x hx
  have hsome : ¬ ∀ t, ¬ s.sched.WaitsOn waitQ t := fun hnone => hnone x hx
  refine ⟨{ s with sched := sched.reschedule, swapRetval := update s.swapRetval x 0, gives := s.gives + 1 }, ?_,
    ⟨⟨L', hinv.reschedule⟩, h.count_le, fun t ht => ?_, fun t wq ht => ?_, ?_⟩, fun _ => rfl⟩
  · simp [SemOp.exec, SemState.kSemGive, SemState.doSemGive, hun, hready, hsome]
  · rw [Sched.WaitsOn, reschedule_base] at ht
    obtain ⟨hne, hold⟩ := hoff t ht
    simpa [hne] using h.waits t hold
  · rw [reschedule_base] at ht
    have hne : t ≠ x := by
      rintro rfl
      simp [hself] at ht
    rw [hother t hne] at ht
    exact h.timeouts t wq ht
  · have hmove := tally_move (fun t => s.taking t && s.swapRetval t == 0)
      (fun t => s.taking t && update s.swapRetval x 0 t == 0) x fun t ht => by rw [update_of_ne ht]
    have hbal := h.balance
    simp only [SemState.handed] at hbal ⊢
    have hnot : (s.swapRetval x == 0) = false := by simpa using hretval
    simp [htaking, hnot] at hmove
    omega

/-- A give that finds nobody waiting. -/
theorem SemInv.give_counts {L : QueueId W → List (Fin N)} (hL : SchedInv H cfg s.sched L)
    (hhead : (L (.waitq waitQ)).head? = none) : SemOp.give.Keeps H cfg waitQ k s := by
  have hnone : ∀ t, ¬ s.sched.WaitsOn waitQ t := fun t ht => by
    have hmem := hL.waitsOn_iff.1 ht
    rw [List.head?_eq_none_iff.1 hhead] at hmem
    cases hmem
  have hun : unpendFirstThread Q s.sched waitQ = some (s.sched, none) := by
    simp only [unpendFirstThread, H.best_spec hL.rep, hhead, bind_eq_bind, bind_some]
  have hle := h.count_le
  have hbal := h.balance
  refine ⟨_, by simp [SemOp.exec, SemState.kSemGive, SemState.doSemGive, hun, hnone]; rfl,
    ⟨⟨L, hL.reschedule⟩, ?_, fun t ht => ?_,
    fun t wq ht => ?_, ?_⟩, fun _ => ?_⟩
  · simp only [SemState.incrementCountUpToLimit]
    split <;> omega
  · simp only [SemState.incrementCountUpToLimit, Sched.WaitsOn, reschedule_base] at ht
    exact absurd ht (hnone t)
  · simp only [SemState.incrementCountUpToLimit, reschedule_base] at ht
    exact h.timeouts t wq ht
  · simp only [SemState.incrementCountUpToLimit, SemState.handed, ite_not] at hbal ⊢
    split <;> omega
  · rfl

theorem SemInv.take_step {announcing : Bool} {timeout : Timeout} {ticks : Nat}
    (hlegal : s.Legal H cfg waitQ announcing (.take timeout ticks)) :
    (SemOp.take timeout ticks).Keeps H cfg waitQ k s := by
  obtain ⟨hfree, hthread⟩ := hlegal
  have hle := h.count_le
  have hbal := h.balance
  by_cases hcount : 0 < s.count
  · refine ⟨{ s with count := s.count - 1, takes := s.takes + 1 }, by simp [SemOp.exec, SemState.kSemTake, hcount],
      ⟨h.sched, ?_, fun t ht => ?_, h.timeouts, ?_⟩, fun _ => rfl⟩
    · show s.count - 1 ≤ s.limit
      omega
    · exact absurd (h.waits t ht).2.2 (by omega)
    · simp only [SemState.handed] at hbal ⊢
      omega
  · by_cases htimeout : timeout = .noWait
    · exact ⟨s, by simp [SemOp.exec, SemState.kSemTake, hcount, htimeout, ebusy], h, fun _ => rfl⟩
    · obtain ⟨hn, hidle⟩ := hthread htimeout
      obtain ⟨L, hL⟩ := h.sched
      obtain ⟨sched, L', hpend, hinv, -⟩ := pendCurrentThread_keeps hL hn hidle waitQ (decide (timeout = .forever))
      have hcur := hfree hn
      refine ⟨{ s with sched := sched, swapRetval := update s.swapRetval s.sched.current eagain,
                       taking := update s.taking s.sched.current true }.noteTimeouts, ?_,
        ⟨⟨L', hinv⟩, hle, fun t ht => ?_, noteTimeouts_timeouts _, ?_⟩, fun _ => rfl⟩
      · simp [SemOp.exec, SemState.kSemTake, hcount, htimeout, hpend, SemState.noteTimeouts]
      · by_cases htc : t = s.sched.current
        · subst htc
          simp only [SemState.noteTimeouts, update_self]
          exact ⟨trivial, by decide, by omega⟩
        · have hold := pendCurrentThread_staysOff (.inl htc) sched hpend ht
          simpa [SemState.noteTimeouts, htc] using h.waits t hold
      · have hmove := tally_move (fun t => s.taking t && s.swapRetval t == 0)
          (fun t => update s.taking s.sched.current true t && update s.swapRetval s.sched.current eagain t == 0)
          s.sched.current fun t ht => by rw [update_of_ne ht, update_of_ne ht]
        simp only [SemState.handed, SemState.noteTimeouts] at hbal ⊢
        simp [hcur, eagain] at hmove
        simp only [eagain]
        omega

theorem SemInv.goOn_step {announcing : Bool} (hlegal : s.Legal H cfg waitQ announcing .goOn) :
    SemOp.goOn.Keeps H cfg waitQ k s := by
  obtain ⟨hn, hcur⟩ := hlegal
  obtain ⟨L, hL⟩ := h.sched
  refine ⟨_, rfl, ⟨h.sched, h.count_le, fun t ht => ?_, h.timeouts, ?_⟩, fun _ => rfl⟩
  · have htc : t ≠ s.sched.current := by
      rintro rfl
      exact hL.current_not_waits hn ht
    simpa [htc] using h.waits t ht
  · have hmove := tally_move (fun t => s.taking t && s.swapRetval t == 0)
      (fun t => update s.taking s.sched.current false t && s.swapRetval t == 0) s.sched.current
      fun t ht => by rw [update_of_ne ht]
    have hbal := h.balance
    simp only [SemState.handed] at hbal ⊢
    simp only [hcur, Bool.true_and, update_self, Bool.false_and, Bool.toNat_false, add_zero] at hmove
    split
    · next hzero =>
      simp [hzero] at hmove
      omega
    · next hzero =>
      have hnot : (s.swapRetval s.sched.current == 0) = false := by simpa using hzero
      simp [hnot] at hmove
      omega

theorem SemInv.reset_step : SemOp.reset.Keeps H cfg waitQ k s := by
  refine ⟨_, rfl, ⟨h.sched, Nat.zero_le _, fun t ht => ⟨(h.waits t ht).1, (h.waits t ht).2.1, rfl⟩,
    h.timeouts, ?_⟩, nofun⟩
  have hbal := h.balance
  simp only [SemState.handed] at hbal ⊢
  omega

/-- The timeout of a thread is handled, which no give has served in the meantime. -/
theorem SemInv.handle_step {x : Fin N} (hidle : x ≠ cfg.idle) (hx : (s.sched.base x).isThreadTimeoutActive = true) :
    ∃ s', s.handleOneExpiredTimeout Q cfg x = some s' ∧ SemInv H cfg waitQ k s' ∧ s'.discarded = s.discarded ∧
      ∀ t, t ≠ x → s'.sched.base t = s.sched.base t := by
  obtain ⟨L, hL⟩ := h.sched
  obtain ⟨sched, L', hexec, hinv, -⟩ := handleOneExpiredThreadTimeout_keeps hL hidle rfl hx
  obtain ⟨hother, -, hnone⟩ := handleOneExpiredThreadTimeout_leaves hL hx hexec
  refine ⟨{ s with sched := sched, timeoutWaitQ := update s.timeoutWaitQ x none }, ?_, ⟨⟨L', hinv⟩, h.count_le,
    fun t ht => h.waits t (staysOff_steady.handleOneExpiredThreadTimeout sched hexec ht), fun t wq ht => ?_,
    h.balance⟩, rfl, hother⟩
  · obtain ⟨wq, hwq⟩ := isSome_iff_exists.1 hx
    obtain ⟨u, hu, hready⟩ := bind_eq_some_iff.1 hexec
    rw [hwq, join_some] at hu
    simp only [SemState.handleOneExpiredTimeout, h.timeouts x wq hwq, bind_eq_bind]
    rw [hu, bind_some, hready, bind_some]
  · have htx : t ≠ x := by
      rintro rfl
      rw [hnone] at ht
      cases ht
    rw [hother t htx] at ht
    simpa [htx] using h.timeouts t wq ht

/-- **What a step keeps.** -/
theorem SemInv.exec {announcing : Bool} {op : SemOp N W} (hlegal : s.Legal H cfg waitQ announcing op)
    (hrekey : (∀ prio l x p, H.RekeyOk prio l x p) ∨ s.KeepsOrder op) : op.Keeps H cfg waitQ k s := by
  cases op with
  | sched op ticks =>
    refine h.sched_step hlegal fun L hL => op.fine_of hlegal.2.1 ?_
    rintro x p w rfl hw
    rcases hrekey with hany | hplaces
    · exact hany _ _ _ _
    · exact H.rekeyOk_of_keepsPlace (KeepsPlaces.keepsPlace hL hplaces hw)
  | give =>
    obtain ⟨L, hL⟩ := h.sched
    cases hhead : (L (.waitq waitQ)).head? with
    | none => exact h.give_counts hL hhead
    | some x => exact h.give_serves hL hhead
  | take timeout ticks => exact h.take_step hlegal
  | goOn => exact h.goOn_step hlegal
  | reset => exact h.reset_step

end

theorem SemBooted.inv (h : SemBooted H cfg s) : SemInv H cfg waitQ s.count s := by
  obtain ⟨hgives, htakes, hwasted, hdiscarded⟩ := h.counts
  refine ⟨⟨_, h.sched.inv⟩, h.count, fun t ht => ?_, fun t wq ht => ?_, ?_⟩
  · exact absurd ht.1 (by simp [(h.sched.base t).1])
  · rw [(h.sched.base t).2.2] at ht
    cases ht
  · have hnone : s.handed = 0 := tally_eq_zero_iff.2 fun t => by simp [h.taking]
    omega

end steps

/-! ## Every run -/

/-- Of a semaphore that began with `k`: a unit is with a thread that has returned 0 from `k_sem_take` or is about
to, is in `count`, or was given at the limit. -/
def SemState.Balanced (k : Nat) (s : SemState N W σ) : Prop := s.takes + s.handed + s.count + s.wasted = k + s.gives

/-- The steps of the semaphore and the clock that are legal, with calls that meet `ok`. Ticks are announced in an
interrupt. -/
def SemState.Allowed (H : Q.Lawful) (cfg : Config N) (waitQ : W) (timer : Fin N → Bool)
    (ok : SemState N W σ → SemOp N W → Prop) :
    TimedState N (SemState N W σ) → TimedOp N (SemOp N W) → Prop :=
  Timed.Legal timer (fun announcing s op => s.Legal H cfg waitQ announcing op ∧ ok s op) fun s => s.sched.nested ≠ 0

instance SemState.decidableAllowed (H : Q.Lawful) [∀ k, Decidable (H.Valid k)] (cfg : Config N) (waitQ : W)
    (timer : Fin N → Bool)
    (ok : SemState N W σ → SemOp N W → Prop) [∀ s op, Decidable (ok s op)] (s : TimedState N (SemState N W σ))
    (op : TimedOp N (SemOp N W)) :
    Decidable (SemState.Allowed H cfg waitQ timer ok s op) :=
  inferInstanceAs (Decidable (Timed.Legal timer (fun announcing s op => s.Legal H cfg waitQ announcing op ∧ ok s op)
    (fun s => s.sched.nested ≠ 0) s op))

/-- Every run from boot whose steps are allowed and leave the announcement's pointers valid gets to its end, and
there the count is in bounds, those that wait find nothing, and without a reset the account is right. -/
def SemAccounts (H : Q.Lawful) (cfg : Config N) (waitQ : W) (ok : SemState N W σ → SemOp N W → Prop) : Prop :=
  ∀ h timer, (∀ i, timer i = false → (h i).rearms = false) → ∀ s0, SemBooted H cfg s0 → ∀ links ops,
    Runs.Along ((semTimed Q cfg waitQ).step h timer)
      (fun s op => SemState.Allowed H cfg waitQ timer ok s op ∧ (semTimed Q cfg waitQ).Safe h s op)
      ⟨s0, bootClock links⟩ ops →
    ∃ s, Runs.run ((semTimed Q cfg waitQ).step h timer) ⟨s0, bootClock links⟩ ops = some s ∧ s.obj.count ≤ s.obj.limit ∧
      (∀ t, s.obj.sched.WaitsOn waitQ t → s.obj.count = 0) ∧
      ((∀ op, .call op ∈ ops → op.isReset = false) → s.obj.Balanced s0.count)

/-- Under the clock nothing is discarded without a reset. -/
theorem semTimed_keeps {ok : SemState N W σ → SemOp N W → Prop}
    (hrekey : ∀ s op, ok s op → (∀ prio l x p, H.RekeyOk prio l x p) ∨ s.KeepsOrder op) (k : Nat) (kept : Prop) :
    (semTimed Q cfg waitQ).Keeps (fun s => SemInv H cfg waitQ k s ∧ (kept → s.discarded = 0))
      fun announcing s op => (s.Legal H cfg waitQ announcing op ∧ ok s op) ∧ (kept → op.isReset = false) where
  call announcing s op h hop := by
    obtain ⟨s', hexec, hinv, hsame⟩ := h.1.exec hop.1.1 (hrekey s op hop.1.2)
    exact ⟨s', hexec, hinv, fun hk => (hsame (hop.2 hk)).trans (h.2 hk)⟩
  handle s i h hi := by
    obtain ⟨hidle, hactive⟩ : i ≠ cfg.idle ∧ (s.sched.base i).isThreadTimeoutActive = true := by
      simpa [semTimed] using hi
    obtain ⟨s', hexec, hinv, hsame, hother⟩ := h.1.handle_step hidle hactive
    refine ⟨s', hexec, ⟨hinv, fun hk => hsame.trans (h.2 hk)⟩, fun t ht harmed => ?_⟩
    simpa only [semTimed, hother t ht] using harmed

theorem semAccounts_of {ok : SemState N W σ → SemOp N W → Prop}
    (hrekey : ∀ s op, ok s op → (∀ prio l x p, H.RekeyOk prio l x p) ∨ s.KeepsOrder op) :
    SemAccounts H cfg waitQ ok := by
  intro h timer hthread s0 hboot links ops hall
  generalize hkept : (∀ op, .call op ∈ ops → op.isReset = false) = kept
  have hall' : Runs.Along ((semTimed Q cfg waitQ).step h timer) (fun s op =>
      Timed.Legal timer (fun announcing s op => (s.Legal H cfg waitQ announcing op ∧ ok s op) ∧
        (kept → op.isReset = false))
        (fun s => s.sched.nested ≠ 0) s op ∧ (semTimed Q cfg waitQ).Safe h s op) ⟨s0, bootClock links⟩ ops := by
    refine hall.imp_mem fun s op hop hperm => ⟨?_, hperm.2⟩
    cases op with
    | call op => exact ⟨hperm.1, fun hk => (hkept ▸ hk) op hop⟩
    | other ev => cases ev <;> exact hperm.1
    | announce ticks => exact hperm.1
    | tick => exact hperm.1
  have hinv : TimedInv (semTimed Q cfg waitQ) timer (fun s => SemInv H cfg waitQ s0.count s ∧ (kept → s.discarded = 0))
      ⟨s0, bootClock links⟩ := ⟨bootClock_inv links, ⟨hboot.inv, fun _ => hboot.counts.2.2.2⟩, nofun⟩
  obtain ⟨s, hrun, hs⟩ := Runs.run_total (fun s op hs hop =>
    hs.step (semTimed_keeps hrekey _ _) hthread hop.1 hop.2) hinv hall'
  refine ⟨s, hrun, hs.obj.1.count_le, fun t ht => (hs.obj.1.waits t ht).2.2, fun hk => ?_⟩
  have hbal := hs.obj.1.balance
  rwa [hs.obj.2 hk] at hbal

/-- **A semaphore accounts for every unit** (sem.c:95-150) in every run in which the announcement's pointers stay
valid, with trees if a waiting thread keeps its place as well. -/
theorem sem_accounts (N : Nat) (W : Type) [DecidableEq W] (hN : N ≤ 2 ^ 32) (highest : ℤ) (cfg : Config N) (waitQ : W) :
    SemAccounts (dumbLawful N W) cfg waitQ (fun _ _ => True) ∧
    SemAccounts (multiqLawful N W highest) cfg waitQ (fun _ _ => True) ∧
      SemAccounts (scalableLawful W hN) cfg waitQ SemState.KeepsOrder :=
  ⟨semAccounts_of fun _ _ _ => .inl fun _ _ _ _ => trivial, semAccounts_of fun _ _ _ => .inl fun _ _ _ _ => trivial,
    semAccounts_of fun _ _ hop => .inr hop⟩

/-- Lists, an empty semaphore of limit 1, the idle thread and threads of the priorities 1 to 4. The last timeout is
one of a timer. -/
def bootSem : SemState 6 Unit (Ring.Links (QNode (QueueId Unit) 6)) :=
  ⟨bootSched 6 (fun y => if y = 0 then 15 else y), 0, 1, fun _ => 0, fun _ => false, fun _ => none, 0, 0, 0, 0⟩

/-- The same with trees. -/
def bootTreeSem : SemState 6 Unit (RbMem 6 × (QueueId Unit → PriqRb 6)) :=
  ⟨⟨(zeroMem 6, fun _ => emptyRb 6), fun y => if y = 0 then 15 else y, fun y => bootBase (y ≠ 0), 0, 0, 0, fun _ => []⟩,
    0, 1, fun _ => 0, fun _ => false, fun _ => none, 0, 0, 0, 0⟩

def lastIsTimer (i : Fin 6) : Bool := i = 5

/-- Threads 1 and 2 wait, threads 3 and 4 are ready. An interrupt announces so many ticks that the timeout of
thread 1 expires. -/
def waitersExpire : List (TimedOp 6 (SemOp 6 Unit)) :=
  [.call (.sched (.start 1) 0), .call (.take .ticks 21), .call (.sched (.start 2) 0),
    .call (.take .forever 0), .call (.sched .isrEnter 0),
    .call (.sched (.start 3) 0), .call (.sched (.start 4) 0), .announce 30]

/-- Another interrupt gives the semaphore. -/
def giveNested : List (TimedOp 6 (SemOp 6 Unit)) := [.call (.sched .isrEnter 0), .call .give, .call (.sched .isrExit 0)]

/-- A timer has expired before thread 1, and is behind it in the list. The semaphore is given to thread 1 before
the walk over the list begins. -/
def givenInTime : List (TimedOp 6 (SemOp 6 Unit)) :=
  .other (.add 5 11) :: waitersExpire ++ .tick :: giveNested ++ List.replicate 4 .tick ++
  [.call (.sched .isrExit 0), .call .goOn]

theorem sem_accounts_givenInTime :
    ∃ s, Runs.run ((semTimed (dumbQueues 6 Unit) (bootConfig 6) ()).step (fun _ => .thread) lastIsTimer)
    ⟨bootSem, bootClock ⟨id, id⟩⟩ givenInTime =
        some s ∧ s.obj.gives = 1 ∧ s.obj.takes = 1 ∧ s.clock.st.handled = [5] ∧ s.obj.Balanced 0 := by
  have hboot : SemBooted (dumbLawful 6 Unit) (bootConfig 6) bootSem :=
    ⟨bootSched_booted 6 _, by decide, by decide, fun _ => rfl, rfl, rfl, rfl, rfl⟩
  have hops : ∀ op, .call op ∈ givenInTime → op.isReset = false := by
    simp [givenInTime, waitersExpire, giveNested, SemOp.isReset]
  refine Runs.exists_end (P := fun s => s.obj.gives = 1 ∧ s.obj.takes = 1 ∧ s.clock.st.handled = [5])
    (by decide +kernel) ?_
  rintro s hrun ⟨hgives, htakes, hhandled⟩
  obtain ⟨-, -, hbal⟩ := Runs.at_end ((sem_accounts 6 Unit (by decide) (-16) (bootConfig 6) ()).1
    (fun _ => .thread) lastIsTimer (fun _ _ => rfl)
    bootSem hboot ⟨id, id⟩ givenInTime (by decide +kernel)) hrun
  exact ⟨hgives, htakes, hhandled, hbal hops⟩

/-- The same, but the walk has come to thread 1 and is about to lock interrupts. Thread 1 returns, takes the
semaphore again, and it is given once more. -/
def givenLate : List (TimedOp 6 (SemOp 6 Unit)) :=
  .other (.add 5 11) :: waitersExpire ++ [.tick, .tick] ++ giveNested ++ List.replicate 6 .tick ++
    [.call (.sched .isrExit 0), .call .goOn, .call (.take .forever 0), .call .goOn, .call .give]

/-- **With trees the handler queues the thread twice** (timeout_q.h:88-96, sched.c:308, rb.c:212). `rb_remove` does
not find thread 1 in the wait queue, and `rb_insert` makes it a child of itself in the run queue. Thread 1 runs,
returns 0 and waits again; one of its two links is cut, and it is still the first of the run queue. So its second
`k_sem_take`, without a timeout, returns `-EAGAIN` at once, while it is in the wait queue; and the next give goes
to thread 1, which does not wait for it.

**With lists, too, the give goes wrong if no timeout is behind that of thread 1** (timeout_q.h:119-131):
`_abort_timeout` takes the head of the local list for a timeout and adds to its difference. -/
theorem given_twice :
    Runs.Along ((semTimed (scalableQueues 6 Unit) (bootConfig 6) ()).step (fun _ => .thread) lastIsTimer)
        (SemState.Allowed (scalableLawful Unit (by decide)) (bootConfig 6) () lastIsTimer SemState.KeepsOrder)
        ⟨bootTreeSem, bootClock ⟨id, id⟩⟩ givenLate ∧
      (∀ op, .call op ∈ givenLate → op.isReset = false) ∧
      (∃ s, Runs.run ((semTimed (scalableQueues 6 Unit) (bootConfig 6) ()).step
        (fun _ => .thread) lastIsTimer) ⟨bootTreeSem, bootClock ⟨id, id⟩⟩ givenLate = some s ∧
        s.obj.gives = 2 ∧ s.obj.takes = 1 ∧ s.obj.handed = 0 ∧ s.obj.count = 0 ∧ s.obj.wasted = 0 ∧
        ¬ s.obj.Balanced bootTreeSem.count) ∧
      Runs.Along ((semTimed (dumbQueues 6 Unit) (bootConfig 6) ()).step (fun _ => .thread) lastIsTimer)
        (SemState.Allowed (dumbLawful 6 Unit) (bootConfig 6) () lastIsTimer fun _ _ => True)
        ⟨bootSem, bootClock ⟨id, id⟩⟩
        (waitersExpire ++ .tick :: giveNested) ∧
      (∃ s, Runs.run ((semTimed (dumbQueues 6 Unit) (bootConfig 6) ()).step (fun _ => .thread) lastIsTimer)
        ⟨bootSem, bootClock ⟨id, id⟩⟩ (waitersExpire ++ [.tick, .call (.sched .isrEnter 0)]) = some s ∧
        s.clock.pc = .walk 1 ∧ s.obj.sched.WaitsOn () 1 ∧ s.clock.st.links.next (.node 1) = .expired ∧
        (semTimed (dumbQueues 6 Unit) (bootConfig 6) ()).step (fun _ => .thread) lastIsTimer s
        (.call .give) = none) := by
  refine ⟨by decide +kernel, by simp [givenLate, waitersExpire, giveNested, SemOp.isReset], Runs.exists_end
    (P := fun s => s.obj.gives = 2 ∧ s.obj.takes = 1 ∧ s.obj.handed = 0 ∧ s.obj.count = 0 ∧ s.obj.wasted = 0)
    (by decide +kernel) ?_,
    by decide +kernel, Runs.exists_end (P := fun s => s.clock.pc = .walk 1 ∧ s.obj.sched.WaitsOn () 1 ∧
      s.clock.st.links.next (.node 1) = .expired ∧
      ((semTimed (dumbQueues 6 Unit) (bootConfig 6) ()).step (fun _ => .thread) lastIsTimer s
        (.call .give)).isNone) (by decide +kernel) ?_⟩
  · rintro s - ⟨hgives, htakes, hhanded, hcount, hwasted⟩
    refine ⟨hgives, htakes, hhanded, hcount, hwasted, fun hbal => ?_⟩
    rw [SemState.Balanced, hgives, htakes, hhanded, hcount, hwasted] at hbal
    exact absurd hbal (by decide)
  · rintro s - ⟨hpc, hwaits, hnext, hnone⟩
    exact ⟨hpc, hwaits, hnext, isNone_iff_eq_none.1 hnone⟩

end Zephyr
