import Zephyr.Kernel.TimeoutQ
import Mathlib.Data.Fin.VecNotation
/-!
# The tick announcement: `handle_timeouts` (kernel/sys_clock.c:191-253) and `_handle_expired_timeouts`

`handle_timeouts` gives up the interrupt lock between any two timeouts it looks at, so it is modelled
as a machine whose steps are its interrupt-locked sections, plus one step for each place where it
reads a list or calls a handler with interrupts open. `Pc` is what its local variables hold between
two steps.

A step answers `none` where the source would use a list head as a `struct _timeout`.
-/
namespace Zephyr

open Ring DeltaQueue List Option

variable {N : Nat}

inductive Pc (N : Nat) where
  | start (ticks : ℤ)
  | dequeue (next : Cell N) (ticks : ℤ)
  | walkHead
  | walk (cn : Fin N)
  | handler (cn : Fin N)
  | walkNext (cn : Fin N)
  | done
deriving DecidableEq

/-- A timeout that has run out goes to the front of `expired` (sys_clock.c:224-240). -/
def moveToExpired (s : TState N) (i : Fin N) : TState N :=
  let links := sysDlistRemove s.links (.node i)
  { s with links := sysDlistPrepend links .expired (.node i) }.setDelta i EXPIRED

@[simp] theorem moveToExpired_delta_self (s : TState N) (i : Fin N) : (moveToExpired s i).delta i = EXPIRED := by
  simp [moveToExpired]

variable {i k : Fin N} {a b : Nat} {c c' : Pc N × TState N} {s' : TState N}

theorem moveToExpired_delta_ne (s : TState N) (hk : k ≠ i) : (moveToExpired s i).delta k = s.delta k := by
  rw [moveToExpired]; exact TState.setDelta_ne _ _ hk

/-- One round of the dequeuing loop (sys_clock.c:201-247). -/
def dequeueSection (s : TState N) (i : Fin N) (ticks : ℤ) : Pc N × TState N :=
  let tmp := s.delta i
  let s := s.setDelta i (if s.delta i < ticks then 0 else s.delta i - ticks)
  let ticks := ticks - tmp
  let goOn : Pc N := match sysDlistPeekNext s.links .timeoutQ (some (.node i)) with
    | some c => .dequeue c ticks
    | none => .walkHead
  if s.delta i = 0 then (goOn, moveToExpired s i)
  else if ticks ≤ 0 then (.walkHead, s)
  else (goOn, s)

/-- The next step of an announcement whose timeouts have handlers `h`. -/
def tickStep (h : Fin N → Handler) : Pc N × TState N → Option (Pc N × TState N)
  | (.start ticks, s) =>
    let s : TState N := { s with links := sysDlistInit s.links .expired }
    match sysDlistPeekHead s.links .timeoutQ with
    | none => some (.done, s)
    | some (.node i) => some (dequeueSection s i ticks)
    | some _ => none
  | (.dequeue (.node i) ticks, s) => some (dequeueSection s i ticks)
  | (.dequeue _ _, _) => none
  | (.walkHead, s) =>
    match sysDlistPeekHead s.links .expired with
    | none => some (.done, s)
    | some (.node i) => some (.walk i, s)
    | some _ => none
  | (.walk i, s) => some (.handler i, expire s i)
  | (.handler i, s) => (runFunc h s i).map fun s => (.walkNext i, s)
  | (.walkNext i, s) =>
    match sysDlistPeekNext s.links .expired (some (.node i)) with
    | none => some (.done, s)
    | some (.node j) => some (.walk j, s)
    | some _ => none
  | (.done, _) => none

/-- `k` steps in a row, nothing else running. -/
def runSteps (h : Fin N → Handler) : Nat → Pc N × TState N → Option (Pc N × TState N)
  | 0, c => some c
  | k + 1, c => (tickStep h c).bind (runSteps h k)

/-- `handle_timeouts(n)` runs from `s` to its end and leaves `s'`. -/
def HandleTimeouts (h : Fin N → Handler) (n : ℤ) (s s' : TState N) : Prop :=
  ∃ k, runSteps h k (.start n, s) = some (.done, s')

/-- `_handle_expired_timeouts(&expired)` runs from `s` to its end and leaves `s'`. -/
def HandleExpiredTimeouts (h : Fin N → Handler) (s s' : TState N) : Prop :=
  ∃ k, runSteps h k (.walkHead, s) = some (.done, s')

/-! ## Runs -/

section
variable {h : Fin N → Handler}

theorem runSteps_add (a b : Nat) (c : Pc N × TState N) :
    runSteps h (a + b) c = (runSteps h a c).bind (runSteps h b) := by
  induction a generalizing c with
  | zero => simp [runSteps]
  | succ a ih =>
    rw [Nat.succ_add]
    simp only [runSteps]
    cases tickStep h c with
    | none => rfl
    | some c' => simpa using ih c'

theorem runSteps_trans {c'' : Pc N × TState N} (h1 : runSteps h a c = some c')
    (h2 : runSteps h b c' = some c'') : runSteps h (a + b) c = some c'' := by
  rw [runSteps_add, h1]; exact h2

theorem runSteps_one (h1 : tickStep h c = some c') : runSteps h 1 c = some c' := by
  simp [runSteps, h1]

/-- Finished runs from the same state, one of them continuing a known prefix. -/
theorem runSteps_done_suffix
    (h1 : runSteps h a c = some c') (h2 : runSteps h b c = some (.done, s')) :
    ∃ k, runSteps h k c' = some (.done, s') := by
  induction a generalizing b c with
  | zero => simp only [runSteps, Option.some.injEq] at h1; exact ⟨b, h1 ▸ h2⟩
  | succ a ih =>
    cases hc : tickStep h c with
    | none => simp [runSteps, hc] at h1
    | some c₁ =>
      cases b with
      | zero =>
        simp only [runSteps, Option.some.injEq] at h2
        subst h2; simp [tickStep] at hc
      | succ b =>
        simp only [runSteps, hc, bind_some] at h1 h2
        exact ih h1 h2

/-- A finished run is the only finished run: the machine is deterministic and stops at `done`. -/
theorem runSteps_done_unique {s : TState N}
    (h1 : runSteps h a c = some (.done, s)) (h2 : runSteps h b c = some (.done, s')) : s = s' := by
  obtain ⟨k, hk⟩ := runSteps_done_suffix h1 h2
  cases k with
  | zero => simpa [runSteps] using hk
  | succ k => simp [runSteps, tickStep] at hk

/-- A run that is stuck short of `done` never gets there. -/
theorem runSteps_stuck {k : Nat} (h1 : runSteps h a c = some c')
    (hpc : c'.1 ≠ .done) (h2 : tickStep h c' = none) : runSteps h k c ≠ some (.done, s') := by
  intro h3
  obtain ⟨k', hk'⟩ := runSteps_done_suffix h1 h3
  cases k' with
  | zero => simp only [runSteps, Option.some.injEq] at hk'; simp [hk'] at hpc
  | succ k' => simp [runSteps, h2] at hk'

/-! ## The dequeuing loop -/

/-- `expired` is the list `e`, apart from the queue `l`; its entries are marked. -/
structure ERep (s : TState N) (l : List (Fin N × ℤ)) (e : List (Fin N)) : Prop where
  ring : IsRing s.links .expired (e.map .node)
  apart : ∀ i ∈ e, i ∉ ids l
  marked : ∀ i ∈ e, s.delta i < INACTIVE

/-- Where the loop goes after it has dealt with everything in front of `l`. -/
def nextPc (l : List (Fin N × ℤ)) (ticks : ℤ) : Pc N :=
  match l with
  | [] => .walkHead
  | (j, _) :: _ => .dequeue (.node j) ticks

variable {s : TState N} {l : List (Fin N × ℤ)} {e : List (Fin N)} {j : Fin N} {d r : ℤ}

theorem peekNext_head (hq : QRep s ((j, d) :: l)) (ticks : ℤ) :
    (match sysDlistPeekNext s.links .timeoutQ (some (.node j)) with
      | some c => Pc.dequeue c ticks
      | none => .walkHead) = nextPc l ticks := by
  have := sysDlistPeekNext_eq (l := []) hq.ring
  rw [this]
  cases l with
  | nil => rfl
  | cons p l => obtain ⟨k, e⟩ := p; rfl

/-- The two lists of an announcement, `_timeout_q` (`true`) and `expired` (`false`), in one memory. -/
def tickHead : Bool → Cell N
  | true => .timeoutQ
  | false => .expired

theorem tickRings (hq : QRep s l) (he : ERep s l e) :
    IsRings s.links tickHead fun b => if b then cells l else e.map .node := by
  have hsep : ∀ c ∈ Cell.timeoutQ :: cells l, c ∉ Cell.expired :: e.map Cell.node := by
    rintro (_ | _ | i) hc
    · simp
    · simp [cells] at hc
    · simp only [mem_cons, reduceCtorEq, node_mem_cells, false_or, List.mem_map, Cell.node.injEq,
        exists_eq_right] at hc ⊢
      exact fun hi => he.apart i hi hc
  refine ⟨?_, ?_⟩
  · rintro (_ | _)
    · exact he.ring
    · exact hq.ring
  · rintro (_ | _) (_ | _) hne c hc hc'
    · exact hne rfl
    · exact hsep c hc' hc
    · exact hsep c hc hc'
    · exact hne rfl

section

variable (hq : QRep s ((j, d) :: l)) (he : ERep s ((j, d) :: l) e)

include hq he

/-- Taking the head of the queue over to the front of `expired`. -/
theorem move_rings :
    IsRing (moveToExpired s j).links .timeoutQ (cells l) ∧
      IsRing (moveToExpired s j).links .expired ((j :: e).map .node) := by
  have hjl : j ∉ ids l := (nodup_cons.1 hq.nodup).1
  have hje : j ∉ e := fun h => he.apart j h (by simp)
  have h1 := isRings_remove (i := true) (n := .node j) (l := []) (r := cells l) (tickRings hq he) rfl
  have h2 := isRings_prepend (i := false) h1 (n := Cell.node j) (by
    rintro (_ | _)
    · simp [tickHead, hje]
    · simp [tickHead, hjl])
  refine ⟨?_, ?_⟩
  · simpa [tickHead, moveToExpired] using h2.ring true
  · simpa [tickHead, moveToExpired] using h2.ring false

/-- The head of the queue is due: it moves to `expired`, the residue shrinks by its share. -/
theorem dequeue_due (hdr : d ≤ r) :
    ∃ s', dequeueSection s j r = (nextPc l (r - d), s') ∧ QRep s' l ∧ ERep s' l (j :: e) ∧
      s'.handled = s.handled ∧ s'.delta j = EXPIRED ∧ ∀ k, k ≠ j → s'.delta k = s.delta k := by
  have hdj : s.delta j = d := hq.delta (j, d) (by simp)
  have hjl : j ∉ ids l := (nodup_cons.1 hq.nodup).1
  have hz : (if d < r then 0 else d - r) = 0 := by split <;> omega
  obtain ⟨hr1, hr2⟩ := move_rings hq he
  refine ⟨moveToExpired (s.setDelta j 0) j, ?_, ⟨hr1, ?_, ?_⟩, ⟨hr2, ?_, ?_⟩, rfl, ?_, ?_⟩
  · simp only [dequeueSection, hdj, hz, TState.setDelta_self, TState.setDelta_links, if_true]
    rw [peekNext_head hq]
  · exact setDelta_apart (setDelta_apart (fun p hp => hq.delta p (mem_cons_of_mem _ hp)) hjl) hjl
  · exact fun p hp => hq.nonneg p (by simp [hp])
  · intro i hi hm
    rcases mem_cons.1 hi with rfl | hi
    · exact hjl hm
    · exact he.apart i hi (by simp [hm])
  · intro i hi
    by_cases hij : i = j
    · subst hij; rw [moveToExpired_delta_self]; decide
    · rw [moveToExpired_delta_ne _ hij, TState.setDelta_ne _ _ hij]
      exact he.marked i ((mem_cons.1 hi).resolve_left hij)
  · exact moveToExpired_delta_self _ _
  · intro k hk
    rw [moveToExpired_delta_ne _ hk, TState.setDelta_ne _ _ hk]

/-- The head of the queue is not due: the whole residue is taken off it and the loop ends. -/
theorem dequeue_not_due (hdr : r < d) :
    dequeueSection s j r = (.walkHead, s.setDelta j (d - r)) ∧ QRep (s.setDelta j (d - r)) ((j, d - r) :: l) ∧
      ERep (s.setDelta j (d - r)) ((j, d - r) :: l) e := by
  have hdj : s.delta j = d := hq.delta (j, d) (by simp)
  have hjl : j ∉ ids l := (nodup_cons.1 hq.nodup).1
  have hz : (if d < r then 0 else d - r) = d - r := by split <;> omega
  have hnz : ¬ d - r = 0 := by omega
  have hbr : r - d ≤ 0 := by omega
  refine ⟨?_, ⟨by simpa using hq.ring, ?_, ?_⟩, ⟨he.ring, ?_, ?_⟩⟩
  · simp only [dequeueSection, hdj, hz, TState.setDelta_self, hnz, if_false, hbr, if_true]
  · intro p hp
    rcases mem_cons.1 hp with rfl | hp
    · simp
    · exact setDelta_apart (fun p hp => hq.delta p (mem_cons_of_mem _ hp)) hjl p hp
  · intro p hp
    rcases mem_cons.1 hp with rfl | hp
    · simp; omega
    · exact hq.nonneg p (by simp [hp])
  · simpa using he.apart
  · intro i hi
    have hij : i ≠ j := by rintro rfl; exact he.apart i hi (by simp)
    rw [TState.setDelta_ne _ _ hij]; exact he.marked i hi

end

/-- The dequeuing loop, undisturbed: `expired` ends up with what is due in reverse queue order. -/
theorem dequeue_run (l : List (Fin N × ℤ)) : ∀ (s : TState N) (e : List (Fin N)) (r : ℤ), QRep s l → ERep s l e →
    ∃ k s', runSteps h k (nextPc l r, s) = some (.walkHead, s') ∧ QRep s' (advance r l).2 ∧
      ERep s' (advance r l).2 ((advance r l).1.reverse ++ e) ∧ s'.handled = s.handled ∧ ∀ i, i ∉ ids l →
      s'.delta i = s.delta i := by
  induction l with
  | nil => exact fun s e r hq he => ⟨0, s, rfl, hq, he, rfl, fun _ _ => rfl⟩
  | cons p l ih =>
    intro s e r hq he
    obtain ⟨j, d⟩ := p
    by_cases hdr : d ≤ r
    · obtain ⟨s₁, hs, hq₁, he₁, hh, _, hdl⟩ := dequeue_due hq he hdr
      obtain ⟨k, s', hk, hq', he', hh', hdl'⟩ := ih s₁ (j :: e) (r - d) hq₁ he₁
      have h1 : runSteps h 1 (.dequeue (.node j) r, s) = some (nextPc l (r - d), s₁) :=
        runSteps_one (by rw [tickStep, hs])
      refine ⟨1 + k, s', runSteps_trans h1 hk, ?_, ?_, hh'.trans hh, fun i hi => ?_⟩
      · rw [advance]; simpa [hdr] using hq'
      · rw [advance]; simpa [hdr] using he'
      · simp only [ids_cons, mem_cons, not_or] at hi
        rw [hdl' i hi.2, hdl i hi.1]
    · obtain ⟨hs, hq', he'⟩ := dequeue_not_due hq he (not_le.1 hdr)
      refine ⟨1, s.setDelta j (d - r), runSteps_one (by rw [nextPc, tickStep, hs]), ?_, ?_, rfl,
        fun i hi => TState.setDelta_ne _ _ (by simp at hi; exact hi.1)⟩
      · simpa [advance, hdr] using hq'
      · simpa [advance, hdr] using he'

/-! ## The walk over `expired` -/

/-- Does handling a timeout put it back into `_timeout_q`? Only `_timer_expiration_handler` of a
periodic timer does (timer.c:55-60). -/
def Handler.rearms : Handler → Bool
  | .timer period => decide (period > 0)
  | _ => false

theorem Handler.rearms_iff {x : Handler} : x.rearms = true ↔ ∃ p, x = .timer p ∧ 0 < p := by
  cases x <;> simp [Handler.rearms]

/-- The queue after the handler of `i` has run. -/
def rearm (h : Fin N → Handler) (i : Fin N) (l : List (Fin N × ℤ)) : List (Fin N × ℤ) :=
  match h i with
  | .timer period => if period > 0 then DeltaQueue.insert i period l else l
  | _ => l

theorem rearm_of_not (hi : (h i).rearms = false) : rearm h i l = l := by
  unfold rearm
  cases hh : h i <;> simp_all [Handler.rearms]

theorem mem_ids_rearm (hk : k ≠ i) : k ∈ ids (rearm h i l) ↔ k ∈ ids l := by
  unfold rearm
  split
  · split
    · simp [mem_ids_insert, hk]
    · rfl
  · rfl

theorem runFunc_of_not (hi : (h i).rearms = false) : runFunc h s i = some s := by
  unfold runFunc
  cases hh : h i <;> simp_all [Handler.rearms]

theorem runFunc_spec (hq : QRep s l) (hi : i ∉ ids l) :
    ∃ s', runFunc h s i = some s' ∧ QRep s' (rearm h i l) ∧
      TouchesOnly s s' (.node i :: .timeoutQ :: cells l) (i :: ids l) ∧ ((h i).rearms = false → s' = s) := by
  by_cases hr : (h i).rearms = false
  · exact ⟨s, runFunc_of_not hr, by rwa [rearm_of_not hr], ⟨fun _ _ => ⟨rfl, rfl⟩, fun _ _ => rfl, rfl⟩, fun _ => rfl⟩
  · obtain ⟨p, hh, hp⟩ := Handler.rearms_iff.1 (Bool.not_eq_false _ ▸ hr)
    obtain ⟨s', e, hq', hf⟩ := enqueue_spec hq hi (t := p) (by omega)
    exact ⟨s', by simp [runFunc, hh, hp, e], by simpa [rearm, hh, hp] using hq', hf, fun h' => absurd h' hr⟩

@[simp] theorem expire_handled (s : TState N) (i : Fin N) : (expire s i).handled = s.handled ++ [i] := rfl
@[simp] theorem expire_delta_self (s : TState N) (i : Fin N) : (expire s i).delta i = INACTIVE := by
  simp [expire]

theorem expire_delta_ne (s : TState N) (hk : k ≠ i) : (expire s i).delta k = s.delta k := by
  rw [expire]; exact TState.setDelta_ne _ _ hk

theorem QRep.expire (hq : QRep s l) (hi : i ∉ ids l) : QRep (expire s i) l :=
    ⟨hq.ring, setDelta_apart hq.delta hi, hq.nonneg⟩

/-- Where the walk goes when `post` is what is left of the list. -/
def walkPc (post : List (Fin N)) : Pc N :=
  match post with
  | [] => .done
  | j :: _ => .walk j

/-- What the walk needs of `expired` while it holds the entry `i`: the entries `post` behind it are
linked up to the head of the list. Nothing is left of the links of `i` itself once `post` is empty,
only the tail pointer of the list still names it. -/
structure Rest (s : TState N) (i : Fin N) (post : List (Fin N)) : Prop where
  nodup : (i :: post).Nodup
  tail : post = [] → s.links.prev .expired = .node i
  chain : post ≠ [] → Chain s.links (.node i) (post.map .node) .expired

namespace Rest

variable {i : Fin N} {post : List (Fin N)}

theorem of_ring (hr : IsRing s.links .expired ((i :: post).map .node)) : Rest s i post := by
  refine ⟨hr.nodup_tail.of_map _, fun hp => ?_, fun _ => hr.chain.2⟩
  subst hp; exact hr.chain.2.2

theorem next {j : Fin N} (hr : Rest s i (j :: post)) : Rest s j post := by
  have hc := (hr.chain (by simp)).2
  refine ⟨(nodup_cons.1 hr.nodup).2, fun hp => ?_, fun _ => hc⟩
  subst hp; exact hc.2

/-- Only the last entry is named by the tail pointer. -/
theorem tail_iff (hr : Rest s i post) : s.links.prev .expired = .node i ↔ post = [] := by
  refine ⟨fun ht => ?_, hr.tail⟩
  by_contra hne
  cases post with
  | nil => exact hne rfl
  | cons j post =>
    have := (hr.chain hne).2.prev_mem
    rw [ht] at this
    have hnd := hr.nodup
    simp at this hnd
    tauto

theorem peekNext (hr : Rest s i post) :
    sysDlistPeekNext s.links .expired (some (.node i)) = (post.map Cell.node).head? := by
  simp only [sysDlistPeekNext, sysDlistPeekNextNoCheck, eq_comm (a := Cell.node i), hr.tail_iff]
  cases post with
  | nil => rfl
  | cons j post => simpa using (hr.chain (by simp)).1.1

/-- Writes to other cells do not disturb the walk. -/
theorem frame (hr : Rest s i post) (he : s'.links.prev .expired = s.links.prev .expired)
    (hc : post ≠ [] → ∀ c ∈ Cell.node i :: post.map Cell.node, s'.links.next c = s.links.next c ∧
      s'.links.prev c = s.links.prev c) : Rest s' i post := by
  refine ⟨hr.nodup, fun hp => he.trans (hr.tail hp), fun hp => ?_⟩
  refine (hr.chain hp).frame (fun c hm => (hc hp c hm).1) (fun c hm => ?_)
  rcases mem_cons.1 hm with rfl | hm
  · exact he
  · exact (hc hp c (mem_cons_of_mem _ hm)).2

end Rest

/-- Body of the loop and the look at the next entry, for a handler that leaves the links alone. -/
theorem walk_quiet {post : List (Fin N)} (hi : (h i).rearms = false) (hr : Rest s i post) :
    runSteps h 3 (.walk i, s) = some (walkPc post, expire s i) := by
  have hnx : sysDlistPeekNext (expire s i).links .expired (some (.node i)) = (post.map Cell.node).head? := hr.peekNext
  simp only [runSteps, tickStep, bind_some, runFunc_of_not hi, map_some, hnx]
  cases post <;> rfl

/-- The last entry may do what it likes with its own node: `expired`'s tail pointer still names it. -/
theorem walk_last (hq : QRep s l) (hil : i ∉ ids l) (hr : Rest s i []) :
    ∃ s', runSteps h 3 (.walk i, s) = some (.done, s') ∧ QRep s' (rearm h i l) ∧
      s'.handled = s.handled ++ [i] ∧ (∀ k, k ∉ ids l → k ≠ i → s'.delta k = s.delta k) ∧
      (i ∉ ids (rearm h i l) → s'.delta i = INACTIVE) := by
  obtain ⟨s', e, hq', hf, hquiet⟩ := runFunc_spec (h := h) (hq.expire hil) hil
  have htail : s'.links.prev .expired = .node i := by
    rw [(hf.links .expired (by simp [cells])).2]; exact hr.tail rfl
  refine ⟨s', ?_, hq', by rw [hf.handled]; rfl, fun k hkl hki => ?_, fun hni => ?_⟩
  · simp only [runSteps, tickStep, bind_some, e, map_some, sysDlistPeekNext, sysDlistPeekNextNoCheck, htail, if_true]
  · rw [hf.delta k (by simp [hkl, hki]), expire_delta_ne _ hki]
  · by_cases hre : (h i).rearms = false
    · rw [hquiet hre]; simp
    · obtain ⟨p, hh, hp⟩ := Handler.rearms_iff.1 (Bool.not_eq_false _ ▸ hre)
      simp [rearm, hh, hp, mem_ids_insert] at hni

/-- The queue after a walk that only the last entry may disturb. -/
def rearmLast (h : Fin N → Handler) (e : List (Fin N)) (l : List (Fin N × ℤ)) : List (Fin N × ℤ) :=
  match e.getLast? with
  | none => l
  | some i => rearm h i l

/-- The walk when nobody but the last entry re-arms itself. -/
theorem walk_run (post : List (Fin N)) : ∀ (i : Fin N) (s : TState N), QRep s l → Rest s i post →
    (∀ k ∈ i :: post, k ∉ ids l) → (∀ k ∈ (i :: post).dropLast, (h k).rearms = false) →
    ∃ k s', runSteps h k (.walk i, s) = some (.done, s') ∧ QRep s' (rearmLast h (i :: post) l) ∧
      s'.handled = s.handled ++ i :: post ∧ (∀ k, k ∉ ids l → k ∉ i :: post → s'.delta k = s.delta k) ∧
      (∀ k ∈ i :: post, k ∉ ids (rearmLast h (i :: post) l) → s'.delta k = INACTIVE) := by
  induction post with
  | nil =>
    intro i s hq hr hap _
    obtain ⟨s', hs, hq', hh, hd, hi⟩ := walk_last (h := h) hq (hap i (by simp)) hr
    refine ⟨3, s', hs, hq', hh, fun k hk hki => hd k hk (by simpa using hki), ?_⟩
    intro k hk hkl
    obtain rfl : k = i := by simpa using hk
    exact hi hkl
  | cons j post ih =>
    intro i s hq hr hap hno
    have hil : i ∉ ids l := hap i (by simp)
    have hquiet := walk_quiet (h := h) (hno i (by simp)) hr
    have hei : i ∉ j :: post := (nodup_cons.1 hr.nodup).1
    have hlast : rearmLast h (i :: j :: post) l = rearmLast h (j :: post) l := by simp [rearmLast]
    obtain ⟨k, s', hk, hq', hh, hd, hin⟩ := ih j (expire s i) (hq.expire hil)
      (hr.next.frame rfl fun _ _ _ => ⟨rfl, rfl⟩)
      (fun k hk => hap k (mem_cons_of_mem _ hk)) (fun k hk => hno k (by simp [hk]))
    rw [hlast]
    refine ⟨3 + k, s', runSteps_trans hquiet hk, hq', by simp [hh], fun k hk hki => ?_, fun k hk hkl => ?_⟩
    · simp only [mem_cons, not_or] at hki
      rw [hd k hk (by simp [hki.2.1, hki.2.2]), expire_delta_ne _ hki.1]
    · rcases mem_cons.1 hk with rfl | hk
      · rw [hd k hil hei]; simp
      · exact hin k hk hkl

/-! ## A re-armed timeout that is not the last one -/

/-- No step forgets a call that was made. -/
theorem enqueueLoop_handled : ∀ (f : Nat) (s : TState N) (c : Option (Cell N)) (s' : TState N),
    enqueueLoop i f s c = some s' → s'.handled = s.handled := by
  intro f
  induction f with
  | zero => simp [enqueueLoop]
  | succ f ih =>
    rintro s (_ | _ | _ | j) s' hs
    · simp only [enqueueLoop, Option.some.injEq] at hs; rw [← hs]
    · simp [enqueueLoop] at hs
    · simp [enqueueLoop] at hs
    · simp only [enqueueLoop] at hs
      split at hs
      · simp only [Option.some.injEq] at hs; rw [← hs]; rfl
      · rw [ih _ _ _ hs]; rfl

theorem dequeueSection_handled (s : TState N) (i : Fin N) (r : ℤ) : (dequeueSection s i r).2.handled = s.handled := by
  simp only [dequeueSection]
  generalize (if s.delta i < r then 0 else s.delta i - r) = d
  split
  · rfl
  · split <;> rfl

theorem tickStep_handled (hc : tickStep h c = some c') : c.2.handled <+: c'.2.handled := by
  obtain ⟨pc, s⟩ := c
  cases pc with
  | start ticks =>
    simp only [tickStep] at hc
    split at hc <;> simp only [Option.some.injEq, reduceCtorEq] at hc
    · rw [← hc]
    · rw [← hc, dequeueSection_handled]
  | dequeue next ticks =>
    cases next <;> simp only [tickStep, Option.some.injEq, reduceCtorEq] at hc
    rw [← hc, dequeueSection_handled]
  | walkHead =>
    simp only [tickStep] at hc
    split at hc <;> simp only [Option.some.injEq, reduceCtorEq] at hc <;> rw [← hc]
  | walk i => simp only [tickStep, Option.some.injEq] at hc; rw [← hc]; exact prefix_append _ _
  | handler i =>
    simp only [tickStep, map_eq_some_iff] at hc
    obtain ⟨s', hs, rfl⟩ := hc
    have : s'.handled = s.handled := by
      unfold runFunc at hs
      split at hs
      · split at hs
        · rw [enqueueLoop_handled _ _ _ _ hs]; rfl
        · cases hs; rfl
      · cases hs; rfl
    exact this ▸ prefix_rfl
  | walkNext i =>
    simp only [tickStep] at hc
    split at hc <;> simp only [Option.some.injEq, reduceCtorEq] at hc <;> rw [← hc]
  | done => simp [tickStep] at hc

theorem runSteps_handled {k : Nat} (hc : runSteps h k c = some c') : c.2.handled <+: c'.2.handled := by
  induction k generalizing c with
  | zero => simp only [runSteps, Option.some.injEq] at hc; rw [hc]
  | succ k ih =>
    cases hs : tickStep h c with
    | none => simp [runSteps, hs] at hc
    | some c₁ =>
      simp only [runSteps, hs, bind_some] at hc
      exact (tickStep_handled hs).trans (ih hc)

/-- The entry after a re-armed one is looked up in `_timeout_q`: the walk either uses the head of
`_timeout_q` as a timeout or handles a timeout that has not expired. -/
theorem walk_astray_here {post : List (Fin N)} {j : Fin N} (hq : QRep s l) (hil : i ∉ ids l)
    (hr : Rest s i (j :: post)) (hi : (h i).rearms = true)
    {k : Nat} (hk : runSteps h k (.walk i, s) = some (.done, s')) :
    ∃ m ∈ ids l, s.handled ++ [i] ++ [m] <+: s'.handled := by
  obtain ⟨p, hh, hp⟩ := Handler.rearms_iff.1 hi
  obtain ⟨s₁, e, hq₁, hf, -⟩ := runFunc_spec (h := h) (hq.expire hil) hil
  have hrun : runSteps h 2 (.walk i, s) = some (.walkNext i, s₁) := by simp [runSteps, tickStep, e]
  obtain ⟨k', hk'⟩ := runSteps_done_suffix hrun hk
  have htail : s₁.links.prev .expired ≠ .node i := by
    rw [(hf.links .expired (by simp [cells])).2]
    exact hr.tail_iff.not.2 (by simp)
  -- the cell behind `i` in the queue it was put into
  have hnext : s₁.links.next (.node i) ∈ Cell.timeoutQ :: cells l := by
    obtain ⟨l₁, l₂, h1, h2, -⟩ := ids_insert l i (p : ℤ)
    have hq₁' : IsRing s₁.links .timeoutQ (l₁.map .node ++ Cell.node i :: l₂.map .node) := by
      have := hq₁.ring
      simpa [rearm, hh, hp, cells, h2] using this
    have := hq₁'.neighbours_mem.2
    simp only [cells, h1, map_append, mem_cons, mem_append] at this ⊢
    tauto
  have hpk : sysDlistPeekNext s₁.links .expired (some (.node i)) = some (s₁.links.next (.node i)) := by
    simp [sysDlistPeekNext, sysDlistPeekNextNoCheck, Ne.symm htail]
  cases k' with
  | zero => simp [runSteps] at hk'
  | succ k' =>
    rcases hn : s₁.links.next (.node i) with _ | _ | m
    · simp [runSteps, tickStep, hpk, hn] at hk'
    · simp [runSteps, tickStep, hpk, hn] at hk'
    · refine ⟨m, by simpa [hn] using hnext, ?_⟩
      simp only [runSteps, tickStep, hpk, hn, bind_some] at hk'
      cases k' with
      | zero => simp [runSteps] at hk'
      | succ k' =>
        simp only [runSteps, tickStep, bind_some] at hk'
        have := runSteps_handled hk'
        simpa [hf.handled] using this

theorem walk_astray (post : List (Fin N)) : ∀ (i : Fin N) (s : TState N), QRep s l → Rest s i post →
    (∀ k ∈ i :: post, k ∉ ids l) → (∃ k ∈ (i :: post).dropLast, (h k).rearms = true) →
    ∀ k s', runSteps h k (.walk i, s) = some (.done, s') →
      ∃ log m, s.handled ++ log <+: s'.handled ∧ m ∈ log ∧ m ∈ ids l := by
  induction post with
  | nil => intro i s _ _ _ hex; simp at hex
  | cons j post ih =>
    intro i s hq hr hap hex k s' hk
    have hil : i ∉ ids l := hap i (by simp)
    cases hi : (h i).rearms with
    | true =>
      obtain ⟨m, hm, hpre⟩ := walk_astray_here hq hil hr hi hk
      exact ⟨[i, m], m, by simpa using hpre, by simp, hm⟩
    | false =>
      obtain ⟨k', hk'⟩ := runSteps_done_suffix (walk_quiet (h := h) hi hr) hk
      have hex' : ∃ k ∈ (j :: post).dropLast, (h k).rearms = true := by
        obtain ⟨x, hx, hxr⟩ := hex
        rw [dropLast_cons_of_ne_nil (by simp), mem_cons] at hx
        rcases hx with rfl | hx
        · simp [hi] at hxr
        · exact ⟨x, hx, hxr⟩
      obtain ⟨log, m, hpre, hm, hml⟩ := ih j (expire s i) (hq.expire hil) (hr.next.frame rfl fun _ _ _ => ⟨rfl, rfl⟩)
        (fun k hk => hap k (mem_cons_of_mem _ hk)) hex' k' s' hk'
      exact ⟨i :: log, m, by simpa using hpre, by simp [hm], hml⟩

/-- `_handle_expired_timeouts` comes to its end, having handled every element of `e` exactly once and
nothing else. -/
def HandlesExactly (h : Fin N → Handler) (s : TState N) (e : List (Fin N)) : Prop :=
  ∃ s' log, HandleExpiredTimeouts h s s' ∧ s'.handled = s.handled ++ log ∧ log.Perm e

theorem walkHead_step (he : ERep s l e) : tickStep h (.walkHead, s) = some (walkPc e, s) := by
  simp only [tickStep, sysDlistPeekHead_eq he.ring]
  cases e <;> rfl

theorem not_handlesExactly (hq : QRep s l) (he : ERep s l e) (hex : ∃ i ∈ e.dropLast, (h i).rearms = true) :
    ¬ HandlesExactly h s e := by
  rintro ⟨s', log, ⟨k, hk⟩, hh, hperm⟩
  cases e with
  | nil => simp at hex
  | cons i post =>
    obtain ⟨k', hk'⟩ := runSteps_done_suffix (runSteps_one (walkHead_step he)) hk
    obtain ⟨log', m, hpre, hm, hml⟩ := walk_astray post i s hq (Rest.of_ring he.ring) he.apart hex k' s' hk'
    have hmlog : m ∈ log := by
      rw [hh, prefix_append_right_inj] at hpre
      exact hpre.subset hm
    exact he.apart m (hperm.mem_iff.1 hmlog) hml

/-- **`_handle_expired_timeouts` (timeout_q.h:110)** handles exactly the expired timeouts if and only
if none of them but possibly the last in the list re-arms itself. -/
theorem handlesExactly_iff (hq : QRep s l) (he : ERep s l e) :
    HandlesExactly h s e ↔ ∀ i ∈ e.dropLast, (h i).rearms = false := by
  constructor
  · intro hx i hi
    by_contra hne
    exact not_handlesExactly hq he ⟨i, hi, by simpa using hne⟩ hx
  · intro hno
    cases e with
    | nil => exact ⟨s, [], ⟨1, runSteps_one (walkHead_step he)⟩, by simp, List.Perm.refl _⟩
    | cons i post =>
      obtain ⟨k, s', hk, -, hh, -⟩ := walk_run post i s hq (Rest.of_ring he.ring) he.apart hno
      exact ⟨s', i :: post, ⟨1 + k, runSteps_trans (runSteps_one (walkHead_step he)) hk⟩, hh, List.Perm.refl _⟩

end

/-- Timeouts 0 and 1 have expired, 2 is due in ten ticks. -/
def twoExpired : TState 3 where
  links :=
    let m := sysDlistInit (sysDlistInit ⟨id, id⟩ .timeoutQ) .expired
    let m := sysDlistAppend m .timeoutQ (.node 2)
    sysDlistPrepend (sysDlistPrepend m .expired (.node 1)) .expired (.node 0)
  delta := ![EXPIRED, EXPIRED, 10]
  handled := []

theorem twoExpired_queue : QRep twoExpired [(2, 10)] := ⟨by decide, by decide, by simp [Nonneg]⟩

theorem twoExpired_expired : ERep twoExpired [(2, 10)] [0, 1] := ⟨by decide, by decide, by decide⟩

theorem handlesExactly_iff_twoExpired :
    HandlesExactly ![.thread, .timer 5, .work] twoExpired [0, 1] ↔
      ∀ i ∈ [(0 : Fin 3), 1].dropLast, (![Handler.thread, .timer 5, .work] i).rearms = false :=
  handlesExactly_iff twoExpired_queue twoExpired_expired

/-- Timer 0 has period 5 and is not the last: 2, due in ten ticks, is handled in its wake and 1 is
not; the list is never left through its own head. -/
theorem twoExpired_astray :
    ¬ HandlesExactly ![.timer 5, .thread, .thread] twoExpired [0, 1] ∧
      (runSteps ![.timer 5, .thread, .thread] 6 (.walkHead, twoExpired)).map (·.2.handled) = some [0, 2] ∧
      runSteps ![.timer 5, .thread, .thread] 7 (.walkHead, twoExpired) = none :=
  ⟨not_handlesExactly twoExpired_queue twoExpired_expired ⟨0, by decide, by decide⟩, by decide, by rfl⟩

end Zephyr
