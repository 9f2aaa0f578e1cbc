import Zephyr.Kernel.SysClockIsr
import Zephyr.Lib.Runs
/-!
# An object under the clock

A kernel object on which threads wait with timeouts, next to the tick handler of `SysClockIsr`. A call does its
`_add_timeout` and `_abort_timeout` with interrupts locked: they are read off from who has a timeout before it and
after it. Between two calls the announcement takes any number of its steps; where it has come to the timeout of a
thread, `_handle_one_expired_timeout` acts on the object as well. Timeouts with a function of their own (`timer`)
come and go.

`aborted` of the clock is the record of the timeouts that are not armed.
-/
namespace Zephyr

open DeltaQueue Ring Function List

variable {N : Nat} {S O : Type}

structure Timed (N : Nat) (S O : Type) where
  exec : S → O → Option S
  /-- The thread waits with a timeout. -/
  armed : S → Fin N → Bool
  /-- For how long, if the call begins one. -/
  ticks : O → Nat
  /-- `_handle_one_expired_timeout` of a thread -/
  handle : S → Fin N → Option S

structure TimedState (N : Nat) (S : Type) where
  obj : S
  clock : IsrState N

inductive TimedOp (N : Nat) (O : Type) where
  | call (op : O)
  | other (ev : Ev N)
  | announce (ticks : Nat)
  | tick

/-- `handle_timeouts` begins. -/
def announce (h : Fin N → Handler) (c : IsrState N) (ticks : Nat) : Option (IsrState N) :=
  if c.pc = .done then
    (tickStep h (.start ticks, c.st)).map fun p => { c with pc := p.1, st := p.2, orig := fun _ => none }
  else none

/-- Calls that turn the timeouts of `before` into those of `after`. -/
def timeoutCalls (before after : Fin N → Bool) (ticks : Nat) : List (Ev N) :=
  (finRange N).filterMap fun i =>
    if before i = after i then none else some (if after i then .add i ticks else .abort i)

namespace Timed

variable (T : Timed N S O) (h : Fin N → Handler) (timer : Fin N → Bool)

def tick (s : TimedState N S) : Option (TimedState N S) := do
  let clock ← isrStep h s.clock .tick
  match s.clock.pc with
  | .walk i =>
    if timer i then some { s with clock := clock }
    else do
      let obj ← T.handle s.obj i
      some ⟨obj, { clock with aborted := update clock.aborted i true }⟩
  | _ => some { s with clock := clock }

/-- What a call does to timeouts. -/
def calls (s : S) (op : O) : List (Ev N) :=
    (T.exec s op).elim [] fun s' => timeoutCalls (T.armed s) (T.armed s') (T.ticks op)

def step (s : TimedState N S) : TimedOp N O → Option (TimedState N S)
  | .call op => do
    let obj ← T.exec s.obj op
    let clock ← Runs.run (isrStep h) s.clock (T.calls s.obj op)
    some ⟨obj, clock⟩
  | .other ev => (isrStep h s.clock ev).map fun clock => { s with clock := clock }
  | .announce ticks => (announce h s.clock ticks).map fun clock => { s with clock := clock }
  | .tick => T.tick h timer s

/-- `ok` is said of a call, during an announcement or not; `begins` is where one can begin. -/
def Legal (ok : Bool → S → O → Prop) (begins : S → Prop) (s : TimedState N S) : TimedOp N O → Prop
  | .call op => ok (s.clock.pc ≠ .done) s.obj op
  | .other (.add i _) | .other (.abort i) => timer i = true
  | .other .tick => False
  | .announce _ => s.clock.pc = .done ∧ begins s.obj
  | .tick => s.clock.pc ≠ .done

/-- The announcement's pointers stay valid. -/
def Safe (s : TimedState N S) : TimedOp N O → Prop
  | .call op => Runs.Along (isrStep h) (Zephyr.Safe h) s.clock (T.calls s.obj op)
  | .other ev => Zephyr.Safe h s.clock ev
  | .announce _ => True
  | .tick => Zephyr.Safe h s.clock .tick

section decidable

instance decidableSaved (pc : Pc N) (p : Fin N → ℤ → Prop) [∀ j r, Decidable (p j r)] :
    Decidable (∀ j r, pc = .dequeue (.node j) r → p j r) :=
  match pc with
  | .dequeue (.node j) r => decidable_of_iff (p j r) ⟨fun hp _ _ e => by cases e; exact hp, fun hp => hp j r rfl⟩
  | .dequeue .timeoutQ _ | .dequeue .expired _ | .start _ | .walkHead | .walk _ | .handler _ | .walkNext _ | .done =>
    isTrue nofun

instance decidableExpiredTail (s : TState N) (i : Fin N) : Decidable (ExpiredTail s i) :=
    inferInstanceAs (Decidable (_ = _))

instance decidableSafeEv (h : Fin N → Handler) (c : IsrState N) : ∀ ev, Decidable (Zephyr.Safe h c ev)
  | .add i ticks => inferInstanceAs (Decidable ((1 ≤ ticks ∧ c.st.delta i = INACTIVE) ∧
      (∀ j r, c.pc = .dequeue (.node j) r → c.st.delta j < ticks) ∧
      (c.pc = .handler i ∨ c.pc = .walkNext i → ExpiredTail c.st i)))
  | .abort i => decidable_of_iff ((∀ j r, c.pc = .dequeue (.node j) r → j ≠ i) ∧ c.pc ≠ .walk i ∧
    ¬ (c.st.delta i < INACTIVE ∧ ExpiredTail c.st i))
      (and_congr_left' ⟨fun hp r e => hp i r e rfl, fun hp _ r e hji => hp r (hji ▸ e)⟩)
  | .tick => inferInstanceAs (Decidable (∀ i, c.pc = .handler i → (h i).rearms = true → ExpiredTail c.st i ∧
    c.st.delta i = INACTIVE))

instance decidableLegal (ok : Bool → S → O → Prop) [∀ b s op, Decidable (ok b s op)]
    (begins : S → Prop) [DecidablePred begins] (s : TimedState N S) : ∀ op, Decidable (Legal timer ok begins s op)
  | .call op => inferInstanceAs (Decidable (ok _ s.obj op))
  | .other (.add i _) | .other (.abort i) => inferInstanceAs (Decidable (timer i = true))
  | .other .tick => isFalse id
  | .announce _ => inferInstanceAs (Decidable (_ ∧ _))
  | .tick => inferInstanceAs (Decidable (¬ _))

instance decidableSafe (s : TimedState N S) : ∀ op, Decidable (T.Safe h s op)
  | .call op => inferInstanceAs (Decidable (Runs.Along (isrStep h) (Zephyr.Safe h) s.clock (T.calls s.obj op)))
  | .other ev => inferInstanceAs (Decidable (Zephyr.Safe h s.clock ev))
  | .announce _ => isTrue trivial
  | .tick => inferInstanceAs (Decidable (Zephyr.Safe h s.clock .tick))

end decidable

end Timed

def Ev.mark (aborted : Fin N → Bool) : Ev N → Fin N → Bool
  | .tick => aborted
  | .add i _ => update aborted i false
  | .abort i => update aborted i true

/-- Who is armed in the end was added, or was armed before and not aborted. -/
theorem mark_foldl {evs : List (Ev N)} {a : Fin N → Bool} {i : Fin N} (hi : evs.foldl Ev.mark a i = false) :
    (∃ t, Ev.add i t ∈ evs) ∨ a i = false ∧ Ev.abort i ∉ evs := by
  induction evs generalizing a with
  | nil => exact .inr ⟨hi, not_mem_nil⟩
  | cons ev evs ih =>
    rcases ih hi with ⟨t, ht⟩ | ⟨ha, hev⟩
    · exact .inl ⟨t, mem_cons_of_mem _ ht⟩
    cases ev with
    | tick => exact .inr ⟨ha, by simpa using hev⟩
    | add k t =>
      by_cases hk : i = k
      · exact .inl ⟨t, by simp [hk]⟩
      · exact .inr ⟨by simpa [Ev.mark, hk] using ha, by simpa using hev⟩
    | abort k =>
      have hk : i ≠ k := by
        rintro rfl
        simp [Ev.mark] at ha
      exact .inr ⟨by simpa [Ev.mark, hk] using ha, by simpa [hk] using hev⟩

section

variable {before after : Fin N → Bool} {ticks : Nat}

theorem mem_timeoutCalls {ev : Ev N} :
    ev ∈ timeoutCalls before after ticks ↔ ∃ i, before i ≠ after i ∧
    (if after i then .add i ticks else .abort i) = ev := by
  simp [timeoutCalls]

theorem tick_not_mem : Ev.tick ∉ timeoutCalls before after ticks := by
  intro hmem
  obtain ⟨i, -, hi⟩ := mem_timeoutCalls.1 hmem
  split at hi <;> cases hi

theorem armed_after {a : Fin N → Bool} {i : Fin N} (hbefore : a i = false → before i = true)
    (hi : (timeoutCalls before after ticks).foldl Ev.mark a i = false) : after i = true := by
  rcases mark_foldl hi with ⟨t, ht⟩ | ⟨ha, hno⟩
  · obtain ⟨k, -, hk⟩ := mem_timeoutCalls.1 ht
    split at hk
    · cases hk
      assumption
    · cases hk
  · by_contra hfalse
    exact hno (mem_timeoutCalls.2 ⟨i, by simp [hbefore ha, hfalse], if_neg hfalse⟩)

end

/-! ## The clock -/

/-- The announcement, or the time between two of them, is as it should be. -/
def ClockInv (c : IsrState N) : Prop := ∃ n log l todo new, IsrInv n log c l todo new

namespace ClockInv

variable {h : Fin N → Handler} {c : IsrState N} {i : Fin N}

/-- The timeout that is about to be handled has not been aborted. -/
theorem armed (hc : ClockInv c) (hpc : c.pc = .walk i) : c.aborted i = false := by
  obtain ⟨n, log, l, todo, new, hv⟩ := hc
  have hl := hv.linked
  rw [hpc] at hl
  obtain ⟨post, rfl, -⟩ := hl
  by_contra hab
  exact (hv.book.inactive (hv.aborted i (by simpa using hab))).2 mem_cons_self

theorem tick (hc : ClockInv c) (hs : Safe h c .tick) (hd : c.pc ≠ .done) :
    ∃ c', isrStep h c .tick = some c' ∧ ClockInv c' ∧ c'.aborted = clearAborted h c := by
  obtain ⟨n, log, l, todo, new, hv⟩ := hc
  obtain ⟨c', l', todo', new', hstep, hv', -⟩ := hv.tick hs hd
  refine ⟨c', hstep, ⟨n, log, l', todo', new', hv'⟩, ?_⟩
  obtain ⟨p, -, rfl⟩ := Option.map_eq_some_iff.1 hstep
  rfl

/-- A thread's timeout is not armed by its handler. -/
theorem aborted_of_clear (hi : (h i).rearms = false) (hfalse : clearAborted h c i = false) : c.aborted i = false := by
  cases hpc : c.pc with
  | handler k =>
    simp only [clearAborted, hpc] at hfalse
    split at hfalse
    · rename_i hre
      rwa [update_of_ne (by rintro rfl; simp [hi] at hre)] at hfalse
    · exact hfalse
  | start _ | dequeue _ _ | walkHead | walk _ | walkNext _ | done => simpa [clearAborted, hpc] using hfalse

/-- The timeout that has been handled is not armed. -/
theorem handled {c' : IsrState N} (hpc : c.pc = .walk i) (hstep : isrStep h c .tick = some c') (hc : ClockInv c') :
    ClockInv { c' with aborted := update c'.aborted i true } := by
  obtain ⟨n, log, l, todo, new, hv⟩ := hc
  refine ⟨n, log, l, todo, new, hv.book, hv.linked, hv.promise, hv.handled, hv.nodup, fun k hk => ?_⟩
  by_cases hki : k = i
  · obtain ⟨p, hp, rfl⟩ := Option.map_eq_some_iff.1 hstep
    rw [hpc, tickStep] at hp
    obtain rfl := Option.some.inj hp
    rw [hki]
    exact expire_delta_self _ _
  · exact hv.aborted k (by simpa [hki] using hk)

theorem call (hc : ClockInv c) {ev : Ev N} (hev : ev ≠ .tick) (hs : Safe h c ev) :
    ∃ c', isrStep h c ev = some c' ∧ ClockInv c' ∧ c'.aborted = ev.mark c.aborted := by
  obtain ⟨n, log, l, todo, new, hv⟩ := hc
  obtain ⟨c', l', todo', new', hstep, hv'⟩ := hv.step hs fun he => absurd he hev
  refine ⟨c', hstep, ⟨n, log, l', todo', new', hv'⟩, ?_⟩
  cases ev with
  | tick => exact absurd rfl hev
  | add k t =>
    obtain ⟨s, -, rfl⟩ := Option.map_eq_some_iff.1 hstep
    rfl
  | abort k =>
    obtain ⟨p, -, rfl⟩ := Option.map_eq_some_iff.1 hstep
    rfl

theorem calls {evs : List (Ev N)} (hc : ClockInv c) (hevs : Ev.tick ∉ evs)
    (hs : Runs.Along (isrStep h) (Safe h) c evs) :
    ∃ c', Runs.run (isrStep h) c evs = some c' ∧ ClockInv c' ∧ c'.aborted = evs.foldl Ev.mark c.aborted := by
  induction evs generalizing c with
  | nil => exact ⟨c, rfl, hc, rfl⟩
  | cons ev evs ih =>
    rw [mem_cons, not_or] at hevs
    obtain ⟨c₁, hstep, hc₁, hab⟩ := hc.call (Ne.symm hevs.1) hs.1
    obtain ⟨c', hrun, hc', hab'⟩ := ih hc₁ hevs.2 (hs.2 c₁ hstep)
    exact ⟨c', by rw [Runs.run_cons, hstep]; exact hrun, hc', by rw [hab', hab, foldl_cons]⟩

theorem announce (hc : ClockInv c) (hpc : c.pc = .done) (ticks : Nat) :
    ∃ c', Zephyr.announce h c ticks = some c' ∧ ClockInv c' ∧ c'.aborted = c.aborted := by
  obtain ⟨n, log, l, todo, new, hv⟩ := hc
  have hl := hv.linked
  rw [hpc] at hl
  obtain rfl : todo = [] := hl
  have hq : Quiescent c.st l := ⟨hv.book.rep, fun i hi => hv.book.idle i hi not_mem_nil⟩
  obtain ⟨pc, st, l', todo', new', hstep, hv'⟩ := IsrInv.start (h := h) (n := ticks) hq (Int.natCast_nonneg _)
    (fun _ => none) nofun c.aborted hv.aborted
  exact ⟨_, by rw [Zephyr.announce, if_pos hpc, hstep]; rfl, ⟨_, _, _, _, _, hv'⟩, rfl⟩

end ClockInv

/-- No timeout is armed. -/
def bootClock (links : Links (Cell N)) : IsrState N where
  pc := .done
  st := ⟨sysDlistInit links .timeoutQ, fun _ => INACTIVE, []⟩
  orig _ := none
  aborted _ := true

theorem bootClock_inv (links : Links (Cell N)) : ClockInv (bootClock links) :=
  ⟨0, [], [], [], [], ⟨⟨isRing_init _ _, by simp, by simp [Nonneg]⟩, by simp, by simp, fun _ _ _ => rfl⟩, rfl,
    nofun, rfl, by simp,
    fun _ _ => rfl⟩

/-! ## The object -/

/-- What keeps `I` on its own, keeps it under the clock. -/
structure Timed.Keeps (T : Timed N S O) (I : S → Prop) (ok : Bool → S → O → Prop) : Prop where
  call : ∀ b s op, I s → ok b s op → ∃ s', T.exec s op = some s' ∧ I s'
  handle : ∀ s i, I s → T.armed s i = true →
    ∃ s', T.handle s i = some s' ∧ I s' ∧ ∀ k, k ≠ i → T.armed s k = true → T.armed s' k = true

structure TimedInv (T : Timed N S O) (timer : Fin N → Bool) (I : S → Prop) (s : TimedState N S) : Prop where
  clock : ClockInv s.clock
  obj : I s.obj
  armed : ∀ i, timer i = false → s.clock.aborted i = false → T.armed s.obj i = true

section

variable {T : Timed N S O} {h : Fin N → Handler} {timer : Fin N → Bool} {I : S → Prop}
  {ok : Bool → S → O → Prop} {begins : S → Prop} {s : TimedState N S}

theorem TimedInv.tick (hT : T.Keeps I ok) (hthread : ∀ i, timer i = false → (h i).rearms = false)
    (hv : TimedInv T timer I s) (hd : s.clock.pc ≠ .done) (hs : Zephyr.Safe h s.clock .tick) :
    ∃ s', T.tick h timer s = some s' ∧ TimedInv T timer I s' := by
  obtain ⟨c', hstep, hc', hab⟩ := hv.clock.tick hs hd
  have hsame : ∀ i, timer i = false → c'.aborted i = false → s.clock.aborted i = false :=
    fun i hi hfalse => ClockInv.aborted_of_clear (hthread i hi) (hab ▸ hfalse)
  have hrest : TimedInv T timer I { s with clock := c' } :=
    ⟨hc', hv.obj, fun i hi hfalse => hv.armed i hi (hsame i hi hfalse)⟩
  cases hpc : s.clock.pc with
  | walk i =>
    by_cases hi : timer i = true
    · exact ⟨_, by simp [Timed.tick, hstep, hpc, hi], hrest⟩
    · have hi : timer i = false := by simpa using hi
      obtain ⟨obj, hobj, hI', harmed⟩ := hT.handle s.obj i hv.obj (hv.armed i hi (hv.clock.armed hpc))
      refine ⟨⟨obj, { c' with aborted := update c'.aborted i true }⟩, by simp [Timed.tick, hstep, hpc, hi, hobj],
        hc'.handled hpc hstep, hI', fun k hk hfalse => ?_⟩
      have hki : k ≠ i := by
        rintro rfl
        simp at hfalse
      exact harmed k hki (hv.armed k hk (hsame k hk (by simpa [hki] using hfalse)))
  | start _ | dequeue _ _ | walkHead | handler _ | walkNext _ | done =>
    exact ⟨_, by simp [Timed.tick, hstep, hpc], hrest⟩

/-- **A step of the object under the clock** that leaves the announcement's pointers valid. -/
theorem TimedInv.step (hT : T.Keeps I ok) (hthread : ∀ i, timer i = false → (h i).rearms = false)
    (hv : TimedInv T timer I s) {op : TimedOp N O} (hlegal : Timed.Legal timer ok begins s op) (hs : T.Safe h s op) :
    ∃ s', T.step h timer s op = some s' ∧ TimedInv T timer I s' := by
  cases op with
  | call op =>
    obtain ⟨obj, hobj, hI⟩ := hT.call _ s.obj op hv.obj hlegal
    have hcalls : T.calls s.obj op = timeoutCalls (T.armed s.obj) (T.armed obj) (T.ticks op) := by
      rw [Timed.calls, hobj]
      rfl
    obtain ⟨c', hrun, hc', hab⟩ := hv.clock.calls (hcalls ▸ tick_not_mem) hs
    refine ⟨⟨obj, c'⟩, by simp [Timed.step, hobj, hrun], hc', hI, fun i hi hfalse => ?_⟩
    rw [hab, hcalls] at hfalse
    exact armed_after (hv.armed i hi) hfalse
  | other ev =>
    have hev : ev ≠ .tick := by
      rintro rfl
      exact hlegal
    obtain ⟨c', hstep, hc', hab⟩ := hv.clock.call hev hs
    refine ⟨⟨s.obj, c'⟩, by simp [Timed.step, hstep], hc', hv.obj, fun i hi hfalse => hv.armed i hi ?_⟩
    -- the timeout is a timer's
    cases ev with
    | tick => exact absurd rfl hev
    | add k t | abort k =>
      have hki : i ≠ k := by
        rintro rfl
        rw [show timer i = true from hlegal] at hi
        cases hi
      simpa [hab, Ev.mark, hki] using hfalse
  | announce ticks =>
    obtain ⟨c', hstep, hc', hab⟩ := hv.clock.announce (h := h) hlegal.1 ticks
    exact ⟨⟨s.obj, c'⟩, by simp [Timed.step, hstep], hc', hv.obj, fun i hi hfalse => hv.armed i hi (hab ▸ hfalse)⟩
  | tick => exact hv.tick hT hthread hlegal hs

end

end Zephyr
