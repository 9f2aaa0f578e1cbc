import Zephyr.Kernel.TimeoutRuns
/-!
# Reprogramming the timer of a tickless kernel (sys_clock.c:273-349)

With `CONFIG_TICKLESS_KERNEL` the end of `_nano_sys_clock_tick_announce` looks for the next event: the timeout at
the head of `_timeout_q`, or the end of the time slice. Zero stands for an event that does not exist.

`slicing` is the answer of `_is_thread_time_slicing(_current)`; what the slice does to the ready queue is in `Preempt`.
-/
namespace Zephyr

open Ring DeltaQueue

variable {N : Nat}

structure Slice where
  duration : ℤ
  elapsed : ℤ
deriving DecidableEq

/-- The conversion to `u32_t`. -/
def toU32 (x : ℤ) : Nat := (x % 2 ^ 32).toNat

/-- The new slice and `next_ts`; `_time_slice_elapsed` has 32 bits. -/
def handleSlice (slicing : Bool) (sl : Slice) (ticks : ℤ) : Slice × Nat :=
  if sl.duration ≤ 0 || !slicing then (sl, 0)
  else
    let elapsed := (sl.elapsed + ticks).bmod (2 ^ 32)
    let sl := { sl with elapsed := if sl.duration ≤ elapsed then 0 else elapsed }
    (sl, toU32 (sl.duration - sl.elapsed))

def K_FOREVER : ℤ := -1

def getNextTimeoutExpiry (s : TState N) : Option ℤ :=
  match sysDlistPeekHead s.links .timeoutQ with
  | some (.node i) => some (s.delta i)
  | some _ => none
  | none => some K_FOREVER

/-- `!next_to || (next_ts && next_to) > next_ts ? next_ts : next_to`: what is compared with `next_ts` is a truth
value. -/
def nextTo (expiry : ℤ) (nextTs : Nat) : Nat :=
  let nextTo := toU32 expiry
  let nextTo := if nextTo = toU32 K_FOREVER then 0 else nextTo
  if nextTo = 0 ∨ (if nextTs ≠ 0 ∧ nextTo ≠ 0 then 1 else 0) > nextTs then nextTs else nextTo

/-- The new slice, `next_to`, and the argument of `_set_time` if it is called. -/
def announceEnd (s : TState N) (slicing : Bool) (sl : Slice) (ticks : ℤ)
    (remaining : Nat) : Option (Slice × Nat × Option Nat) := do
  let (sl, nextTs) := handleSlice slicing sl ticks
  let nextTo := nextTo (← getNextTimeoutExpiry s) nextTs
  some (sl, nextTo, if (remaining = 0 ∧ nextTo ≠ 0) ∨ nextTo < remaining then some nextTo else none)

/-- The nearer of two events, where zero is none. -/
def nearest (a b : Nat) : Nat := if a = 0 then b else if b = 0 then a else min a b

/-- The slice that is left after `ticks` more, zero without time slicing. -/
def sliceLeft (slicing : Bool) (sl : Slice) (ticks : ℤ) : Nat :=
  if sl.duration ≤ 0 || !slicing then 0
  else if sl.duration ≤ (sl.elapsed + ticks).bmod (2 ^ 32) then toU32 sl.duration
  else toU32 (sl.duration - (sl.elapsed + ticks).bmod (2 ^ 32))

theorem handleSlice_left (slicing : Bool) (sl : Slice) (ticks : ℤ) :
    (handleSlice slicing sl ticks).2 = sliceLeft slicing sl ticks := by
  unfold handleSlice sliceLeft
  split
  · rfl
  · by_cases hend : sl.duration ≤ (sl.elapsed + ticks).bmod (2 ^ 32)
    · simp only [hend, if_true, Int.sub_zero]
    · simp only [hend, if_false]

theorem pick_nearest {a b : Nat} :
    (if a = 0 ∨ (if b ≠ 0 ∧ a ≠ 0 then 1 else 0) > b then b else a) = nearest a b ↔ (a ≠ 0 → b ≠ 0 → a ≤ b) := by
  unfold nearest
  by_cases ha : a = 0
  · simp [ha]
  · by_cases hb : b = 0
    · simp [ha, hb]
    · have hpick : ¬ (a = 0 ∨ (if b ≠ 0 ∧ a ≠ 0 then 1 else 0) > b) := by
        rw [if_pos ⟨hb, ha⟩]
        omega
      rw [if_neg hpick, if_neg ha, if_neg hb]
      omega

/-- The delta of the first timeout, zero if there is none. -/
def headDelta (l : List (Fin N × ℤ)) : Nat := l.head?.elim 0 fun p => p.2.toNat

theorem nextTo_head {s : TState N} {l : List (Fin N × ℤ)} (hq : QRep s l)
    (hfit : ∀ p ∈ l, p.2 < 2 ^ 31) (nextTs : Nat) :
    ∃ expiry, getNextTimeoutExpiry s = some expiry ∧
      (nextTo expiry nextTs = nearest (headDelta l) nextTs ↔
        (headDelta l ≠ 0 → nextTs ≠ 0 → headDelta l ≤ nextTs)) := by
  unfold getNextTimeoutExpiry
  rw [sysDlistPeekHead_eq hq.ring]
  cases l with
  | nil => exact ⟨_, rfl, iff_of_true rfl fun h => absurd rfl h⟩
  | cons p l =>
    have h0 : 0 ≤ p.2 := hq.nonneg p (by simp)
    have h31 := hfit p (by simp)
    have hdelta : s.delta p.1 = p.2 := hq.delta p (by simp)
    have hu : toU32 p.2 = p.2.toNat := by
      rw [toU32, Int.emod_eq_of_lt h0 (by omega)]
    have hne : p.2.toNat ≠ toU32 K_FOREVER := by
      have : toU32 K_FOREVER = 2 ^ 32 - 1 := by decide
      omega
    refine ⟨s.delta p.1, rfl, ?_⟩
    simp only [nextTo, hdelta, hu, hne, if_false]
    exact pick_nearest

/-- **The end of `_nano_sys_clock_tick_announce`** takes the nearest event exactly if the slice does not end before the
first timeout; and it sets the timer to an event that is earlier than what it is set to, or if it is not set. -/
theorem announceEnd_nearest {s : TState N} {l : List (Fin N × ℤ)} (hq : QRep s l)
    (hfit : ∀ p ∈ l, p.2 < 2 ^ 31) (slicing : Bool) (sl : Slice) (ticks : ℤ) (remaining : Nat) :
    ∃ sl' next set, announceEnd s slicing sl ticks remaining = some (sl', next, set) ∧
      (next = nearest (headDelta l) (sliceLeft slicing sl ticks) ↔ (headDelta l ≠ 0 → sliceLeft slicing sl ticks ≠ 0 →
          headDelta l ≤ sliceLeft slicing sl ticks)) ∧
      (next ≠ 0 → next < remaining ∨ remaining = 0 → set = some next) := by
  obtain ⟨expiry, hexp, hnext⟩ := nextTo_head hq hfit (sliceLeft slicing sl ticks)
  unfold announceEnd
  simp only [hexp, handleSlice_left, Option.bind_eq_bind, Option.bind_some]
  refine ⟨_, _, _, rfl, hnext, fun hne hrem => if_pos ?_⟩
  omega

/-- One timeout with ten ticks left. -/
def oneQueued : TState 1 := ⟨sysDlistAppend (sysDlistInit ⟨id, id⟩ .timeoutQ) .timeoutQ (.node 0), fun _ => 10, []⟩

theorem oneQueued_queue : QRep oneQueued [(0, 10)] := ⟨by decide, by decide, by simp [Nonneg]⟩

theorem announceEnd_nearest_oneQueued : ∃ sl, announceEnd oneQueued true ⟨15, 3⟩ 1 0 = some (sl, 10, some 10) := by
  obtain ⟨sl, next, set, he, hnext, hset⟩ :=
    announceEnd_nearest oneQueued_queue (by decide) true ⟨15, 3⟩ 1 0
  obtain rfl : next = 10 := (hnext.2 (by decide)).trans (by decide)
  rw [hset (by decide) (by decide)] at he
  exact ⟨sl, he⟩

/-- The slice ends in four ticks and the timeout in ten: the timer is set to ten. -/
theorem slice_missed : announceEnd oneQueued true ⟨5, 0⟩ 1 0 = some (⟨5, 1⟩, 10, some 10) ∧
    sliceLeft true ⟨5, 0⟩ 1 = 4 ∧ nearest 10 4 = 4 := by
  decide

end Zephyr
