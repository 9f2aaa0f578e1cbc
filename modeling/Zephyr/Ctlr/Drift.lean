import Mathlib.Data.BitVec
import Mathlib.Tactic.LinearCombination
import Mathlib.Tactic.Ring
/-!
# The controller's ticker does not drift (subsys/bluetooth/controller/ticker/ticker.c:408-545, :674-861)

An interval is `ticks_periodic` ticks and `remainder_periodic` parts of a tick, of which a tick has 30517578.
`remainder_current` is what the ticks so far are short of, a signed number in an unsigned variable:
`ticker_remainder_inc` takes one tick more as soon as half a tick is missing.
-/
namespace Zephyr

/-- `struct ticker_node` without its place in the lists. -/
structure TickerNode where
  force : BitVec 8
  ticksPeriodic : BitVec 32
  ticksToExpire : BitVec 32
  ticksToExpireMinus : BitVec 32
  ticksSlot : BitVec 32
  lazyPeriodic : BitVec 16
  lazyCurrent : BitVec 16
  remainderPeriodic : BitVec 32
  remainderCurrent : BitVec 32

structure TickerUserOpStart where
  ticksAtStart : BitVec 32
  ticksFirst : BitVec 32
  ticksPeriodic : BitVec 32
  remainderPeriodic : BitVec 32
  lazy : BitVec 16
  ticksSlot : BitVec 32

structure TickerUserOpUpdate where
  ticksDriftPlus : BitVec 16
  ticksDriftMinus : BitVec 16
  ticksSlotPlus : BitVec 16
  ticksSlotMinus : BitVec 16
  lazy : BitVec 16
  force : BitVec 8

def tickerTicksDiffGet (ticksNow ticksOld : BitVec 32) : BitVec 32 := (ticksNow - ticksOld) &&& 0x00FFFFFF

/-- What is to be taken off is taken off, and what is left of it stays in `ticks_to_expire_minus`. -/
def TickerNode.removeDrift (ticker : TickerNode) : TickerNode :=
  if ticker.ticksToExpireMinus < ticker.ticksToExpire then
    { ticker with ticksToExpire := ticker.ticksToExpire - ticker.ticksToExpireMinus, ticksToExpireMinus := 0 }
  else { ticker with ticksToExpireMinus := ticker.ticksToExpireMinus - ticker.ticksToExpire, ticksToExpire := 0 }

def ticksToExpirePrep (ticker : TickerNode) (ticksCurrent ticksAtStart : BitVec 32) : TickerNode :=
  TickerNode.removeDrift <|
    if (ticksAtStart - ticksCurrent).getLsbD 23 = false then
      { ticker with ticksToExpire := ticker.ticksToExpire + tickerTicksDiffGet ticksAtStart ticksCurrent }
    else
      let delta := tickerTicksDiffGet ticksCurrent ticksAtStart
      if delta < ticker.ticksToExpire then { ticker with ticksToExpire := ticker.ticksToExpire - delta }
      else { ticker with
    ticksToExpireMinus := ticker.ticksToExpireMinus + (delta - ticker.ticksToExpire), ticksToExpire := 0 }

def tickerRemainderInc (ticker : TickerNode) : TickerNode × Nat :=
  let remainder := ticker.remainderCurrent + ticker.remainderPeriodic
  if remainder < 0x80000000 ∧ 30517578 / 2 < remainder then
    ({ ticker with remainderCurrent := remainder - 30517578 }, 1)
  else ({ ticker with remainderCurrent := remainder }, 0)

def tickerRemainderDec (ticker : TickerNode) : TickerNode × Nat :=
  if 0x80000000 ≤ ticker.remainderCurrent ∨ ticker.remainderCurrent ≤ 30517578 / 2 then
    ({ ticker with remainderCurrent := ticker.remainderCurrent + 30517578 - ticker.remainderPeriodic }, 1)
  else ({ ticker with remainderCurrent := ticker.remainderCurrent - ticker.remainderPeriodic }, 0)

/-- A ticker, with the ticks that were added to its `ticks_to_expire` for intervals less those that were taken from
it, and the intervals. -/
structure TickerCount where
  ticker : TickerNode
  ticks : ℤ
  intervals : ℤ

namespace TickerCount

/-- One interval more. -/
def advance (c : TickerCount) : TickerCount :=
  let (ticker, carry) := tickerRemainderInc c.ticker
  ⟨{ ticker with ticksToExpire := ticker.ticksToExpire + (ticker.ticksPeriodic + BitVec.ofNat 32 carry) },
    c.ticks + (ticker.ticksPeriodic.toNat + carry), c.intervals + 1⟩

/-- One interval less. -/
def retreat (c : TickerCount) : TickerCount :=
  let (ticker, decrement) := tickerRemainderDec c.ticker
  ⟨{ ticker with ticksToExpire := ticker.ticksToExpire - (ticker.ticksPeriodic + BitVec.ofNat 32 decrement) },
    c.ticks - (ticker.ticksPeriodic.toNat + decrement), c.intervals - 1⟩

def onTicker (f : TickerNode → TickerNode) (c : TickerCount) : TickerCount := { c with ticker := f c.ticker }

/-- `while ((ticks_to_expire > ticker->ticks_periodic) && (ticker->lazy_current > lazy))`: at most `lazy_current`
times. -/
def retreatLoop (lazy : BitVec 16) : Nat → TickerCount → TickerCount
  | 0, c => c
  | n + 1, c =>
    if c.ticker.ticksPeriodic < c.ticker.ticksToExpire ∧ lazy < c.ticker.lazyCurrent then
      retreatLoop lazy n (c.retreat.onTicker fun t => { t with lazyCurrent := t.lazyCurrent - 1 })
    else c

/-- `while (ticker->lazy_current < lazy)`: at most `lazy` times. -/
def advanceLoop (lazy : BitVec 16) : Nat → TickerCount → TickerCount
  | 0, c => c
  | n + 1, c =>
    if c.ticker.lazyCurrent < lazy then advanceLoop lazy n
    (c.advance.onTicker fun t => { t with lazyCurrent := t.lazyCurrent + 1 }) else c

/-- The part of `ticker_job_node_update` that is about `lazy`. -/
def updateLazy (lazy : BitVec 16) (c : TickerCount) : TickerCount :=
  if c.ticker.ticksPeriodic ≠ 0 ∧ lazy ≠ 0 then
    let back := retreatLoop (lazy - 1) c.ticker.lazyCurrent.toNat c
    (advanceLoop (lazy - 1) lazy.toNat back).onTicker fun t => { t with lazyPeriodic := lazy - 1 }
  else c

def tickerJobNodeUpdate (op : TickerUserOpUpdate) (ticksCurrent ticksElapsed ticksNow : BitVec 32)
    (c : TickerCount) : TickerCount :=
  let elapsed := ticksElapsed + tickerTicksDiffGet ticksNow ticksCurrent
  let late := c.onTicker fun t =>
    if elapsed < t.ticksToExpire then { t with ticksToExpire := t.ticksToExpire - elapsed }
    else { t with ticksToExpireMinus := t.ticksToExpireMinus + (elapsed - t.ticksToExpire), ticksToExpire := 0 }
  (updateLazy op.lazy late).onTicker fun t =>
    let t := ticksToExpirePrep { t with
      ticksToExpire := t.ticksToExpire + op.ticksDriftPlus.setWidth 32
      ticksToExpireMinus := t.ticksToExpireMinus + op.ticksDriftMinus.setWidth 32 } ticksCurrent ticksNow
    let slot := t.ticksSlot + op.ticksSlotPlus.setWidth 32
    { t with
      ticksSlot := if op.ticksSlotMinus.setWidth 32 < slot then slot - op.ticksSlotMinus.setWidth 32 else 0
      force := if op.force ≠ 0 then op.force else t.force }

/-- What `ticker_job_worker_bh` does with a ticker that expired. -/
def expire (ticksCurrent ticksAtExpire : BitVec 32) (c : TickerCount) : TickerCount :=
  let expired := c.onTicker fun t => { t with ticksToExpire := 0 }
  if c.ticker.ticksPeriodic ≠ 0 then
    (advance^[1 + c.ticker.lazyPeriodic.toNat] expired).onTicker fun t =>
      { ticksToExpirePrep t ticksCurrent ticksAtExpire with lazyCurrent := t.lazyPeriodic, force := 0 }
  else expired

/-- The next interval, where `ticker_job_insert` finds the place occupied. -/
def skip (c : TickerCount) : TickerCount :=
  if c.ticker.ticksPeriodic ≠ 0 then c.advance.onTicker fun t =>
    TickerNode.removeDrift { t with lazyCurrent := t.lazyCurrent + 1 } else c

end TickerCount

def tickerJobOpStart (op : TickerUserOpStart) (ticksCurrent : BitVec 32) : TickerNode :=
  ticksToExpirePrep ⟨1, op.ticksPeriodic, op.ticksFirst, 0, op.ticksSlot, op.lazy, 0, op.remainderPeriodic,
    0⟩ ticksCurrent op.ticksAtStart

inductive IntervalOp where
  | expire (ticksCurrent ticksAtExpire : BitVec 32)
  | skip
  | update (op : TickerUserOpUpdate) (ticksCurrent ticksElapsed ticksNow : BitVec 32)

def IntervalOp.exec (c : TickerCount) : IntervalOp → TickerCount
  | .expire ticksCurrent ticksAtExpire => c.expire ticksCurrent ticksAtExpire
  | .skip => c.skip
  | .update op ticksCurrent ticksElapsed ticksNow => c.tickerJobNodeUpdate op ticksCurrent ticksElapsed ticksNow

/-! ## What an interval keeps -/

/-- The bounds of the remainder, and of the remainder with that of one interval more. -/
def TickerNode.Bounded (t : TickerNode) : Prop :=
    -15258788 ≤ t.remainderCurrent.toInt ∧ t.remainderCurrent.toInt + t.remainderPeriodic.toNat ≤ 45776367

/-- The ticks and the remainder are the intervals. -/
structure Exact (periodic remainder : BitVec 32) (c : TickerCount) : Prop where
  ticksPeriodic : c.ticker.ticksPeriodic = periodic
  remainderPeriodic : c.ticker.remainderPeriodic = remainder
  total : c.ticks * 30517578 + c.ticker.remainderCurrent.toInt =
    c.intervals * (periodic.toNat * 30517578 + remainder.toNat)
  bounded : c.ticker.Bounded

/-- The intervals of the two are the same, and what the ticks are short of. -/
def TickerNode.SameInterval (t t' : TickerNode) : Prop :=
  t'.ticksPeriodic = t.ticksPeriodic ∧ t'.remainderPeriodic = t.remainderPeriodic ∧
  t'.remainderCurrent = t.remainderCurrent

theorem lt_highbit_iff {x : BitVec 32} : x < 0x80000000 ↔ 0 ≤ x.toInt := by
  rw [BitVec.toInt_eq_toNat_cond, BitVec.lt_def]
  have := x.isLt
  split <;> simp <;> omega

theorem toInt_add_of {x y : BitVec 32} {k : ℤ} (hy : y.toInt = k) (hlo : -2 ^ 31 ≤ x.toInt + k)
    (hhi : x.toInt + k < 2 ^ 31) : (x + y).toInt = x.toInt + k := by
  rw [BitVec.toInt_add, hy]
  exact Int.bmod_eq_of_le (by omega) (by omega)

theorem toInt_sub_of {x y : BitVec 32} {k : ℤ} (hy : y.toInt = k) (hlo : -2 ^ 31 ≤ x.toInt - k)
    (hhi : x.toInt - k < 2 ^ 31) : (x - y).toInt = x.toInt - k := by
  rw [BitVec.toInt_sub, hy]
  exact Int.bmod_eq_of_le (by omega) (by omega)

theorem toInt_tick : BitVec.toInt (30517578 : BitVec 32) = 30517578 := by decide

/-- More than half a tick. -/
theorem half_lt_iff {x : BitVec 32} (hx : 0 ≤ x.toInt) : 30517578 / 2 < x ↔ 15258789 < x.toInt := by
  rw [BitVec.toInt_eq_toNat_cond] at hx ⊢
  rw [BitVec.lt_def]
  have := x.isLt
  split at hx
  · simp_all
  · omega

section

variable {periodic remainder : BitVec 32} {c : TickerCount} {t : TickerNode}

theorem tickerRemainderInc_spec (hr : t.remainderPeriodic.toNat < 30517578) (h : t.Bounded) :
    ∃ r carry, tickerRemainderInc t = ({ t with remainderCurrent := r }, carry) ∧
      r.toInt = t.remainderCurrent.toInt + t.remainderPeriodic.toNat - carry * 30517578 ∧
      TickerNode.Bounded { t with remainderCurrent := r } := by
  obtain ⟨hlo, hhi⟩ := h
  have hsum := toInt_add_of (x := t.remainderCurrent)
    (BitVec.toInt_eq_toNat_of_lt (x := t.remainderPeriodic) (by omega)) (by omega) (by omega)
  unfold tickerRemainderInc TickerNode.Bounded
  dsimp only
  split
  · next h =>
    have h0 := lt_highbit_iff.1 h.1
    have hhalf := (half_lt_iff h0).1 h.2
    have hsub := toInt_sub_of (x := t.remainderCurrent + t.remainderPeriodic) toInt_tick (by omega) (by omega)
    exact ⟨_, 1, rfl, by omega, by omega, by omega⟩
  · next h =>
    refine ⟨_, 0, rfl, by omega, by omega, ?_⟩
    by_cases h0 : 0 ≤ (t.remainderCurrent + t.remainderPeriodic).toInt
    · rw [lt_highbit_iff, half_lt_iff h0] at h
      omega
    · omega

theorem tickerRemainderDec_spec (hr : t.remainderPeriodic.toNat < 30517578) (h : t.Bounded) :
    ∃ r decrement, tickerRemainderDec t = ({ t with remainderCurrent := r }, decrement) ∧
      r.toInt = t.remainderCurrent.toInt - t.remainderPeriodic.toNat + decrement * 30517578 ∧
      TickerNode.Bounded { t with remainderCurrent := r } := by
  obtain ⟨hlo, hhi⟩ := h
  have hp := BitVec.toInt_eq_toNat_of_lt (x := t.remainderPeriodic) (by omega)
  have hcond : 0x80000000 ≤ t.remainderCurrent ∨ t.remainderCurrent ≤ 30517578 / 2 ↔
    t.remainderCurrent.toInt ≤ 15258789 := by
    rw [← BitVec.not_lt, ← BitVec.not_lt (x := 30517578 / 2), lt_highbit_iff]
    by_cases h0 : 0 ≤ t.remainderCurrent.toInt
    · rw [half_lt_iff h0]
      omega
    · omega
  simp only [tickerRemainderDec, TickerNode.Bounded, hcond]
  split
  · have hadd := toInt_add_of (x := t.remainderCurrent) toInt_tick (by omega) (by omega)
    have hsub := toInt_sub_of (x := t.remainderCurrent + 30517578) hp (by omega) (by omega)
    exact ⟨_, 1, rfl, by omega, by omega, by omega⟩
  · have hsub := toInt_sub_of (x := t.remainderCurrent) hp (by omega) (by omega)
    exact ⟨_, 0, rfl, by omega, by omega, by omega⟩

variable (hr : remainder.toNat < 30517578) (h : Exact periodic remainder c)

include hr h

theorem Exact.advance : Exact periodic remainder c.advance := by
  obtain ⟨rfl, rfl, htotal, hb⟩ := h
  obtain ⟨r, carry, hinc, hr', hb'⟩ := tickerRemainderInc_spec hr hb
  unfold TickerCount.advance
  rw [hinc]
  refine ⟨rfl, rfl, ?_, hb'⟩
  dsimp only
  linear_combination htotal + hr'

theorem Exact.retreat : Exact periodic remainder c.retreat := by
  obtain ⟨rfl, rfl, htotal, hb⟩ := h
  obtain ⟨r, decrement, hdec, hr', hb'⟩ := tickerRemainderDec_spec hr hb
  unfold TickerCount.retreat
  rw [hdec]
  refine ⟨rfl, rfl, ?_, hb'⟩
  dsimp only
  linear_combination htotal + hr'

omit hr in
/-- The rest of the ticker may change. -/
theorem Exact.onTicker {f : TickerNode → TickerNode} (hf : c.ticker.SameInterval (f c.ticker)) :
    Exact periodic remainder (c.onTicker f) := by
  obtain ⟨hp, hq, hc⟩ := hf
  refine ⟨hp.trans h.ticksPeriodic, hq.trans h.remainderPeriodic, ?_, ?_⟩
  · rw [TickerCount.onTicker, hc]
    exact h.total
  · rw [TickerCount.onTicker, TickerNode.Bounded, hc, hq]
    exact h.bounded

end

theorem removeDrift_same (t : TickerNode) : t.SameInterval t.removeDrift := by
  unfold TickerNode.removeDrift
  split <;> exact ⟨rfl, rfl, rfl⟩

theorem ticksToExpirePrep_same (t : TickerNode) (ticksCurrent ticksAtStart : BitVec 32) :
    t.SameInterval (ticksToExpirePrep t ticksCurrent ticksAtStart) := by
  unfold ticksToExpirePrep
  split
  · exact removeDrift_same _
  · dsimp only
    split
    · exact removeDrift_same _
    · exact removeDrift_same _

/-! ## Where the ticks go -/

/-- What `ticks_to_expire_prep` adds for the time that has passed. -/
def prepShift (ticksCurrent ticksAtStart : BitVec 32) : BitVec 32 :=
  if (ticksAtStart - ticksCurrent).getLsbD 23 = false then tickerTicksDiffGet ticksAtStart ticksCurrent
  else -tickerTicksDiffGet ticksCurrent ticksAtStart

/-- The part of the time to the expiry that is not from intervals. -/
def TickerCount.rest (c : TickerCount) : BitVec 32 :=
    c.ticker.ticksToExpire - c.ticker.ticksToExpireMinus - BitVec.ofInt 32 c.ticks

/-- What an operation does to that part: the ticks of an expiry are over, time has passed, and an update brings a
drift. -/
def IntervalOp.shift (c : TickerCount) : IntervalOp → BitVec 32
  | .expire ticksCurrent ticksAtExpire =>
    (if c.ticker.ticksPeriodic ≠ 0 then prepShift ticksCurrent ticksAtExpire else 0) - c.ticker.ticksToExpire
  | .skip => 0
  | .update op ticksCurrent ticksElapsed ticksNow => prepShift ticksCurrent ticksNow + op.ticksDriftPlus.setWidth 32 -
      op.ticksDriftMinus.setWidth 32 - (ticksElapsed + tickerTicksDiffGet ticksNow ticksCurrent)

/-- The same for operations in turn. -/
def shifts (c : TickerCount) : List IntervalOp → BitVec 32
  | [] => 0
  | op :: ops => op.shift c + shifts (op.exec c) ops

section

variable (c : TickerCount)

theorem removeDrift_net (t : TickerNode) :
    t.removeDrift.ticksToExpire - t.removeDrift.ticksToExpireMinus = t.ticksToExpire - t.ticksToExpireMinus := by
  unfold TickerNode.removeDrift
  split
  · exact sub_zero _
  · dsimp only
    ring

theorem ticksToExpirePrep_net (t : TickerNode) (ticksCurrent ticksAtStart : BitVec 32) :
    (ticksToExpirePrep t ticksCurrent ticksAtStart).ticksToExpire -
        (ticksToExpirePrep t ticksCurrent ticksAtStart).ticksToExpireMinus =
      t.ticksToExpire - t.ticksToExpireMinus + prepShift ticksCurrent ticksAtStart := by
  rw [ticksToExpirePrep, removeDrift_net, prepShift]
  split
  · dsimp only
    ring
  · dsimp only
    split
    · dsimp only
      ring
    · dsimp only
      ring

theorem ofInt_ticks (periodic : BitVec 32) (k : Nat) :
    BitVec.ofInt 32 ((periodic.toNat : ℤ) + k) = periodic + BitVec.ofNat 32 k := by
  rw [BitVec.ofInt_add, BitVec.ofInt_natCast, BitVec.ofInt_natCast, BitVec.ofNat_toNat, BitVec.setWidth_eq]

theorem advance_rest : c.advance.rest = c.rest := by
  obtain ⟨r, carry, hinc⟩ : ∃ r carry, tickerRemainderInc c.ticker = ({ c.ticker with remainderCurrent := r },
    carry) := by
    unfold tickerRemainderInc
    dsimp only
    split <;> exact ⟨_, _, rfl⟩
  simp only [TickerCount.advance, hinc, TickerCount.rest]
  rw [BitVec.ofInt_add, ofInt_ticks]
  ring

theorem retreat_rest : c.retreat.rest = c.rest := by
  obtain ⟨r, decrement, hdec⟩ : ∃ r decrement,
    tickerRemainderDec c.ticker = ({ c.ticker with remainderCurrent := r }, decrement) := by
    unfold tickerRemainderDec
    split <;> exact ⟨_, _, rfl⟩
  simp only [TickerCount.retreat, hdec, TickerCount.rest]
  rw [Int.sub_eq_add_neg, BitVec.ofInt_add, BitVec.ofInt_neg, ofInt_ticks]
  ring

theorem retreatLoop_rest (lazy : BitVec 16) (n : Nat) : (c.retreatLoop lazy n).rest = c.rest := by
  fun_induction TickerCount.retreatLoop lazy n c with
  | case1 => rfl
  | case2 _ _ _ ih => exact ih.trans (retreat_rest _)
  | case3 => rfl

theorem advanceLoop_rest (lazy : BitVec 16) (n : Nat) : (c.advanceLoop lazy n).rest = c.rest := by
  fun_induction TickerCount.advanceLoop lazy n c with
  | case1 => rfl
  | case2 _ _ _ ih => exact ih.trans (advance_rest _)
  | case3 => rfl

theorem updateLazy_rest (lazy : BitVec 16) : (c.updateLazy lazy).rest = c.rest := by
  unfold TickerCount.updateLazy
  split
  · exact (advanceLoop_rest _ _ _).trans (retreatLoop_rest _ _ _)
  · rfl

/-- A change of the ticker alone. -/
theorem onTicker_rest {f : TickerNode → TickerNode} {k : BitVec 32}
    (hf : (f c.ticker).ticksToExpire - (f c.ticker).ticksToExpireMinus =
      c.ticker.ticksToExpire - c.ticker.ticksToExpireMinus + k) :
    (c.onTicker f).rest = c.rest + k := by
  simp only [TickerCount.rest, TickerCount.onTicker, hf]
  ring

theorem expire_rest (ticksCurrent ticksAtExpire : BitVec 32) :
    (c.expire ticksCurrent ticksAtExpire).rest = c.rest + (IntervalOp.expire ticksCurrent ticksAtExpire).shift c := by
  have h0 : (c.onTicker fun t => { t with ticksToExpire := 0 }).rest = c.rest + -c.ticker.ticksToExpire :=
    onTicker_rest c (by ring)
  have hadvance : ∀ n c, (TickerCount.advance^[n] c).rest = c.rest := fun n c =>
    Function.Iterate.rec (fun c' => c'.rest = c.rest) rfl (fun c' h => (advance_rest c').trans h) n
  simp only [TickerCount.expire, IntervalOp.shift]
  split
  · rw [onTicker_rest _ (k := prepShift ticksCurrent ticksAtExpire), hadvance, h0]
    · ring
    · exact ticksToExpirePrep_net _ _ _
  · rw [h0]
    ring

theorem update_rest (op : TickerUserOpUpdate) (ticksCurrent ticksElapsed ticksNow : BitVec 32) :
    (c.tickerJobNodeUpdate op ticksCurrent ticksElapsed ticksNow).rest =
      c.rest + (IntervalOp.update op ticksCurrent ticksElapsed ticksNow).shift c := by
  have hlate : ∀ elapsed : BitVec 32, (c.onTicker fun t =>
      if elapsed < t.ticksToExpire then { t with ticksToExpire := t.ticksToExpire - elapsed }
      else { t with ticksToExpireMinus := t.ticksToExpireMinus + (elapsed - t.ticksToExpire),
                    ticksToExpire := 0 }).rest = c.rest + -elapsed := by
    intro elapsed
    refine onTicker_rest c ?_
    split
    · dsimp only
      ring
    · dsimp only
      ring
  have hdrift : prepShift ticksCurrent ticksNow + op.ticksDriftPlus.setWidth 32 - op.ticksDriftMinus.setWidth 32 =
      op.ticksDriftPlus.setWidth 32 - op.ticksDriftMinus.setWidth 32 + prepShift ticksCurrent ticksNow := by ring
  simp only [TickerCount.tickerJobNodeUpdate, IntervalOp.shift]
  rw [onTicker_rest _ (k := op.ticksDriftPlus.setWidth 32 - op.ticksDriftMinus.setWidth 32 +
    prepShift ticksCurrent ticksNow), updateLazy_rest, hlate, hdrift]
  · ring
  · rw [ticksToExpirePrep_net]
    dsimp only
    ring

/-- **The ticks that are counted are those that `ticks_to_expire` gets**, up to the width of the variable. -/
theorem exec_rest (op : IntervalOp) : (op.exec c).rest = c.rest + op.shift c := by
  cases op with
  | expire ticksCurrent ticksAtExpire => exact expire_rest c _ _
  | skip =>
    simp only [IntervalOp.exec, TickerCount.skip, IntervalOp.shift]
    split
    · rw [onTicker_rest _ (k := 0), advance_rest]
      rw [removeDrift_net]
      exact (add_zero _).symm
    · exact (add_zero _).symm
  | update op ticksCurrent ticksElapsed ticksNow => exact update_rest c op _ _ _

theorem foldl_rest (ops : List IntervalOp) : (ops.foldl IntervalOp.exec c).rest = c.rest + shifts c ops := by
  induction ops generalizing c with
  | nil => exact (add_zero _).symm
  | cons op ops ih => rw [List.foldl_cons, ih, exec_rest, shifts, add_assoc]

end

/-! ## Every sequence of operations -/

section

variable {periodic remainder : BitVec 32} (hr : remainder.toNat < 30517578)

include hr

theorem Exact.retreatLoop {lazy : BitVec 16} {n : Nat} {c : TickerCount} (h : Exact periodic remainder c) :
    Exact periodic remainder (c.retreatLoop lazy n) := by
  fun_induction TickerCount.retreatLoop lazy n c with
  | case1 => exact h
  | case2 _ _ _ ih => exact ih ((h.retreat hr).onTicker ⟨rfl, rfl, rfl⟩)
  | case3 => exact h

theorem Exact.advanceLoop {lazy : BitVec 16} {n : Nat} {c : TickerCount} (h : Exact periodic remainder c) :
    Exact periodic remainder (c.advanceLoop lazy n) := by
  fun_induction TickerCount.advanceLoop lazy n c with
  | case1 => exact h
  | case2 _ _ _ ih => exact ih ((h.advance hr).onTicker ⟨rfl, rfl, rfl⟩)
  | case3 => exact h

theorem Exact.updateLazy {lazy : BitVec 16} {c : TickerCount} (h : Exact periodic remainder c) :
    Exact periodic remainder (c.updateLazy lazy) := by
  unfold TickerCount.updateLazy
  split
  · exact ((h.retreatLoop hr).advanceLoop hr).onTicker ⟨rfl, rfl, rfl⟩
  · exact h

theorem Exact.exec {c : TickerCount} (h : Exact periodic remainder c) (op : IntervalOp) :
    Exact periodic remainder (op.exec c) := by
  cases op with
  | expire ticksCurrent ticksAtExpire =>
    have h0 : Exact periodic remainder (c.onTicker fun t => { t with ticksToExpire := 0 }) := h.onTicker ⟨rfl, rfl, rfl⟩
    simp only [IntervalOp.exec, TickerCount.expire]
    split
    · refine Exact.onTicker ?_ (ticksToExpirePrep_same _ _ _)
      exact Function.Iterate.rec _ h0 (fun _ h => h.advance hr) _
    · exact h0
  | skip =>
    simp only [IntervalOp.exec, TickerCount.skip]
    split
    · exact (h.advance hr).onTicker (removeDrift_same _)
    · exact h
  | update op ticksCurrent ticksElapsed ticksNow =>
    simp only [IntervalOp.exec, TickerCount.tickerJobNodeUpdate]
    refine Exact.onTicker (Exact.updateLazy hr (h.onTicker ?_)) ?_
    · split <;> exact ⟨rfl, rfl, rfl⟩
    · exact ticksToExpirePrep_same _ _ _

end

/-- Between the least and the largest value that `remainder_current` may take. -/
def TickerRange (x : ℤ) : Prop := -30517578 < x ∧ x < 2 * 30517578

/-- **A ticker does not drift**, whatever its intervals and however often it expires, skips intervals and is
updated. The ticks that were added for its intervals and the remainder, read with its sign, are the intervals
exactly; they are in `ticks_to_expire`, up to its width. The remainder is in its range, and so are the sums that
`ticker_remainder_inc` and `ticker_remainder_dec` make of it before they compare or go on. -/
theorem ticker_noDrift (start : TickerUserOpStart) (ticksCurrent : BitVec 32)
    (hr : start.remainderPeriodic.toNat < 30517578) (ops : List IntervalOp) :
    let c0 : TickerCount := ⟨tickerJobOpStart start ticksCurrent, 0, 0⟩
    let c := ops.foldl IntervalOp.exec c0
    let r := c.ticker.remainderCurrent
    c.ticks * 30517578 + r.toInt =
        c.intervals * (start.ticksPeriodic.toNat * 30517578 + start.remainderPeriodic.toNat) ∧
      TickerRange r.toInt ∧
      (r + start.remainderPeriodic).toInt = r.toInt + start.remainderPeriodic.toNat ∧
      TickerRange (r.toInt + start.remainderPeriodic.toNat) ∧
      (r.toInt ≤ 30517578 / 2 → (r + 30517578).toInt = r.toInt + 30517578 ∧ TickerRange (r.toInt + 30517578)) ∧
      c.rest = c0.rest + shifts c0 ops := by
  have hstart : Exact start.ticksPeriodic start.remainderPeriodic ⟨tickerJobOpStart start ticksCurrent, 0, 0⟩ := by
    refine Exact.onTicker (c := ⟨⟨1, start.ticksPeriodic, start.ticksFirst, 0, start.ticksSlot, start.lazy, 0,
      start.remainderPeriodic, 0⟩, 0, 0⟩)
      (f := (ticksToExpirePrep · ticksCurrent start.ticksAtStart)) ⟨rfl, rfl, by simp, ?_⟩
      (ticksToExpirePrep_same _ _ _)
    simp [TickerNode.Bounded]
    omega
  intro c0 c r
  obtain ⟨-, hrem, htotal, hlo, hhi⟩ : Exact _ _ c :=
    List.foldlRecOn ops IntervalOp.exec hstart fun _ h op _ => h.exec hr op
  rw [hrem] at hhi
  change _ ≤ r.toInt at hlo
  change r.toInt + _ ≤ _ at hhi
  refine ⟨htotal, ⟨by omega, by omega⟩, ?_, ⟨by omega, by omega⟩,
    fun hhalf => ⟨toInt_add_of toInt_tick (by omega) (by omega), by omega, by omega⟩,
    foldl_rest c0 ops⟩
  exact toInt_add_of (BitVec.toInt_eq_toNat_of_lt (by omega)) (by omega) (by omega)

/-- Every tenth of a tick short: an interval of 3 ticks and 9/10, with one interval that may be missed. -/
theorem ticker_noDrift_nineTenths : (27465820#32).toNat < 30517578 ∧
    let c := [IntervalOp.expire 0 0, .skip, .update ⟨0, 0, 0, 0, 1, 0⟩ 0 0 0].foldl IntervalOp.exec
      ⟨tickerJobOpStart ⟨0, 3, 3, 27465820, 1, 0⟩ 0, 0, 0⟩
    c.ticks * 30517578 + c.ticker.remainderCurrent.toInt = c.intervals * (3 * 30517578 + 27465820) :=
  ⟨by decide, (ticker_noDrift ⟨0, 3, 3, 27465820, 1, 0⟩ 0 (by decide) _).1⟩

end Zephyr
