import Zephyr.Misc.Dlist
import Zephyr.Lib.DeltaQueue
import Mathlib.Data.Fintype.Card
/-!
# The timeout queue: `_add_timeout`, `_abort_timeout`, `_handle_one_expired_timeout` (kernel/include/timeout_q.h)

A `struct _timeout` is a cell of `_timeout_q` (or of the local `expired` list of `handle_timeouts`)
and a word `delta_ticks_from_prev`. There are `N` such objects in memory, `N` arbitrary. A list walk
of the source is given `N + 1` rounds: a walk that needs more visits a cell twice and never ends, and
the model answers `none`, as it does where the source uses a list head as a `struct _timeout`.

What readying a thread or submitting a work item does to the scheduler is not part of this state:
neither touches a timeout that is queued.
-/
namespace Zephyr

open Ring DeltaQueue List

/-- `_INACTIVE` -/
def INACTIVE : ℤ := -1
/-- `_EXPIRED` -/
def EXPIRED : ℤ := -2

/-- The cells that can be linked into a timeout list. -/
inductive Cell (N : Nat) where
  | timeoutQ
  | expired
  | node (i : Fin N)
deriving DecidableEq

/-- Who is behind a timeout: a thread, a `k_timer` with its period in ticks (0: one shot), a delayed work. -/
inductive Handler where
  | thread
  | timer (period : Nat)
  | work
deriving DecidableEq

structure TState (N : Nat) where
  links : Links (Cell N)
  delta : Fin N → ℤ
  handled : List (Fin N)

variable {N : Nat}

variable {i : Fin N} {l : List (Fin N × ℤ)} {s : TState N}

namespace TState

section

variable (s : TState N) (i : Fin N) (d : ℤ)

def setDelta : TState N := { s with delta := Function.update s.delta i d }

@[simp] theorem setDelta_links : (s.setDelta i d).links = s.links := rfl
@[simp] theorem setDelta_self : (s.setDelta i d).delta i = d := by simp [setDelta]

end

theorem setDelta_ne (s : TState N) {j : Fin N} (d : ℤ) (h : j ≠ i) : (s.setDelta i d).delta j = s.delta j := by
  simp [setDelta, h]

end TState

/-- The walk over `_timeout_q` that looks for the insert point (timeout_q.h:241-250); `in_q` is the
loop variable, `delta i` doubles as the `*delta` that is counted down. -/
def enqueueLoop (i : Fin N) : Nat → TState N → Option (Cell N) → Option (TState N)
  | 0, _, _ => none
  | _ + 1, s, none => some { s with links := sysDlistAppend s.links .timeoutQ (.node i) }
  | f + 1, s, some (.node j) =>
    if s.delta i ≤ s.delta j then
      let s := s.setDelta j (s.delta j - s.delta i)
      some { s with links := sysDlistInsertBefore s.links .timeoutQ (some (.node j)) (.node i) }
    else
      let s := s.setDelta i (s.delta i - s.delta j)
      enqueueLoop i f s (sysDlistPeekNext s.links .timeoutQ (some (.node j)))
  | _ + 1, _, some _ => none

def enqueue (s : TState N) (i : Fin N) (ticks : ℤ) : Option (TState N) :=
  enqueueLoop i (N + 1) (s.setDelta i ticks) (sysDlistPeekHead s.links .timeoutQ)

/-- The interrupt-locked part of `_handle_one_expired_timeout` (timeout_q.h:86-95). -/
def expire (s : TState N) (i : Fin N) : TState N :=
  { s.setDelta i INACTIVE with handled := s.handled ++ [i] }

section

variable (h : Fin N → Handler) (s : TState N) (i : Fin N)

/-- `timeout->func(timeout)`: `_timer_expiration_handler` (timer.c:46) re-adds a periodic timer. -/
def runFunc : Option (TState N) :=
  match h i with
  | .timer period => if period > 0 then enqueue s i period else some s
  | _ => some s

def handleOneExpiredTimeout : Option (TState N) :=
  runFunc h (expire s i) i

/-- A timeout of 0 ticks is handled on the spot (timeout_q.h:217-220). -/
def addTimeout (ticks : ℤ) : Option (TState N) :=
  if ticks = 0 then handleOneExpiredTimeout h (s.setDelta i 0) i else enqueue s i ticks

end

/-- Returns the C return value and the new state. -/
def abortTimeout (s : TState N) (i : Fin N) : Option (ℤ × TState N) :=
  if s.delta i = INACTIVE then some (INACTIVE, s)
  else
    let given : Option (TState N) :=
      if sysDlistIsTail s.links .timeoutQ (.node i) then some s
      else match sysDlistPeekNext s.links .timeoutQ (some (.node i)) with
        | some (.node j) => some (s.setDelta j (s.delta j + s.delta i))
        -- the word behind a list head would be written
        | _ => none
    given.map fun s => (0, { s.setDelta i INACTIVE with links := sysDlistRemove s.links (.node i) })

/-! ## What the queue means -/

def cells (l : List (Fin N × ℤ)) : List (Cell N) := (ids l).map Cell.node

@[simp] theorem cells_nil : cells ([] : List (Fin N × ℤ)) = [] := rfl

@[simp] theorem cells_cons (j : Fin N) (d : ℤ) (l : List (Fin N × ℤ)) : cells ((j, d) :: l) = .node j :: cells l := rfl

@[simp] theorem cells_append (l r : List (Fin N × ℤ)) : cells (l ++ r) = cells l ++ cells r := by simp [cells]

@[simp] theorem node_mem_cells : Cell.node i ∈ cells l ↔ i ∈ ids l := by
  simp [cells]

/-- `_timeout_q` is the queue of differences `l`. -/
structure QRep (s : TState N) (l : List (Fin N × ℤ)) : Prop where
  ring : IsRing s.links .timeoutQ (cells l)
  delta : ∀ p ∈ l, s.delta p.1 = p.2
  nonneg : Nonneg l

namespace QRep

variable {s : TState N} {l : List (Fin N × ℤ)}

theorem nodup (h : QRep s l) : (ids l).Nodup := h.ring.nodup_tail.of_map _

theorem length_le (h : QRep s l) : (ids l).length ≤ N := by
  simpa using h.nodup.length_le_card

end QRep

/-- `s'` agrees with `s` on the links of every cell outside `cs` and on the difference of every
timeout outside `is`, and no handler ran. -/
structure TouchesOnly (s s' : TState N) (cs : List (Cell N)) (is : List (Fin N)) : Prop where
  links : ∀ c, c ∉ cs → s'.links.next c = s.links.next c ∧ s'.links.prev c = s.links.prev c
  delta : ∀ j, j ∉ is → s'.delta j = s.delta j
  handled : s'.handled = s.handled

/-- The word of a timeout that is not queued is not part of the queue. -/
theorem setDelta_apart {d : ℤ} (hd : ∀ p ∈ l, s.delta p.1 = p.2) (hi : i ∉ ids l) :
    ∀ p ∈ l, (s.setDelta i d).delta p.1 = p.2 := fun p hp =>
  (TState.setDelta_ne s d (show p.1 ≠ i from fun e => hi (e ▸ mem_ids_of_mem hp))).trans (hd p hp)

/-- The insert-point walk on the part `l₂` of the queue that is left. -/
theorem enqueueLoop_spec (l₂ : List (Fin N × ℤ)) :
    ∀ (f : Nat) (s : TState N) (l₁ : List (Fin N × ℤ)), IsRing s.links .timeoutQ (cells l₁ ++ cells l₂) →
      (∀ p ∈ l₂, s.delta p.1 = p.2) → i ∉ ids l₁ → i ∉ ids l₂ → l₂.length < f →
      ∃ s', enqueueLoop i f s (cells l₂).head? = some s' ∧
        IsRing s'.links .timeoutQ (cells l₁ ++ cells (DeltaQueue.insert i (s.delta i) l₂)) ∧
        (∀ p ∈ DeltaQueue.insert i (s.delta i) l₂, s'.delta p.1 = p.2) ∧
        TouchesOnly s s' (.node i :: .timeoutQ :: (cells l₁ ++ cells l₂)) (i :: ids l₂) := by
  induction l₂ with
  | nil =>
    intro f s l₁ hr _ h1 _ hf
    obtain ⟨f, rfl⟩ : ∃ g, f = g + 1 := ⟨f - 1, by simp at hf; omega⟩
    have hn : Cell.node i ∉ Cell.timeoutQ :: (cells l₁ ++ cells ([] : List (Fin N × ℤ))) := by simp [h1]
    refine ⟨_, rfl, ?_, ?_, ?_⟩
    · simpa [DeltaQueue.insert] using isRing_append hr hn
    · simp [DeltaQueue.insert]
    · refine ⟨fun c hc => ?_, fun j _ => rfl, rfl⟩
      rw [sysDlistAppend_eq (by simp)]
      have hp := hr.prev_head_mem
      refine IsRing.linkBefore_of_ne ?_ ?_ ?_ <;> rintro rfl <;> simp_all
  | cons p l₂ ih =>
    intro f s l₁ hr hd h1 h2 hf
    obtain ⟨j, d⟩ := p
    obtain ⟨f, rfl⟩ : ∃ g, f = g + 1 := ⟨f - 1, by simp at hf; omega⟩
    simp only [ids_cons, mem_cons, not_or] at h2
    have hji : j ≠ i := fun e => h2.1 e.symm
    have hdj : s.delta j = d := hd (j, d) (by simp)
    have hd₂ : ∀ p ∈ l₂, s.delta p.1 = p.2 := fun p hp => hd p (mem_cons_of_mem _ hp)
    have hj2 : j ∉ ids l₂ := by
      have := hr.nodup_tail
      simp only [cells_cons, nodup_append, nodup_cons, node_mem_cells] at this
      exact this.2.1.1
    by_cases htd : s.delta i ≤ d
    · -- insert point found: `i` goes in front of `j`, which gives up `i`'s share
      have hn : Cell.node i ∉ Cell.timeoutQ :: (cells l₁ ++ Cell.node j :: cells l₂) := by
        simp [h1, h2.2, h2.1]
      refine ⟨_, by simp [enqueueLoop, hdj, htd]; rfl, ?_, ?_, ?_⟩
      · simp only [DeltaQueue.insert, htd, if_true, cells_cons]
        exact isRing_insertBefore (l := cells l₁) hr hn
      · intro p hp
        simp only [DeltaQueue.insert, htd, if_true, mem_cons] at hp
        rcases hp with rfl | rfl | hp
        · exact TState.setDelta_ne _ _ (Ne.symm hji)
        · simp
        · exact setDelta_apart hd₂ hj2 p hp
      · refine ⟨fun c hc => ?_, fun k hk => ?_, rfl⟩
        · simp only
          rw [sysDlistInsertBefore_eq (by simpa using Ne.symm hji)]
          have hp := (IsRing.neighbours_mem (l := cells l₁) hr).1
          refine IsRing.linkBefore_of_ne ?_ ?_ ?_ <;> rintro rfl <;> simp_all
        · simp only [mem_cons, ids_cons, not_or] at hk
          exact TState.setDelta_ne _ _ hk.2.1
    · -- keep walking with what is left after `j`
      have hnx : sysDlistPeekNext s.links .timeoutQ (some (.node j)) = (cells l₂).head? :=
        sysDlistPeekNext_eq (l := cells l₁) hr
      obtain ⟨s', e, hr', hd', hfr⟩ := ih f (s.setDelta i (s.delta i - s.delta j)) (l₁ ++ [(j, d)])
        (by simpa using hr) (setDelta_apart hd₂ h2.2)
        (by simp [h1, h2.1]) h2.2 (by simp at hf ⊢; omega)
      have hins : DeltaQueue.insert i (s.delta i) ((j, d) :: l₂) =
          (j, d) :: DeltaQueue.insert i (s.delta i - s.delta j) l₂ := by
        rw [hdj]; simp [DeltaQueue.insert, htd]
      rw [TState.setDelta_self] at hr' hd'
      refine ⟨s', ?_, ?_, ?_, ?_⟩
      · simp only [cells_cons, List.head?_cons, enqueueLoop, hdj, htd, if_false]
        rw [hdj] at e
        rw [TState.setDelta_links, hnx]; exact e
      · rw [hins]; simpa using hr'
      · intro p hp
        rw [hins, mem_cons] at hp
        rcases hp with rfl | hp
        · rw [hfr.delta j (by simp [hji, hj2]), TState.setDelta_ne _ _ hji, hdj]
        · exact hd' p hp
      · refine ⟨fun c hc => ?_, fun k hk => ?_, hfr.handled⟩
        · have := hfr.links c (by simpa using hc)
          simpa using this
        · simp only [mem_cons, ids_cons, not_or] at hk
          rw [hfr.delta k (by simp [hk.1, hk.2.2]), TState.setDelta_ne _ _ hk.1]

/-- **`_add_timeout` (timeout_q.h:195)** with at least one tick puts the timeout into the queue of
differences and moves nothing else. -/
theorem enqueue_spec (hq : QRep s l) (hi : i ∉ ids l) {t : ℤ} (ht : 0 ≤ t) :
    ∃ s', enqueue s i t = some s' ∧ QRep s' (DeltaQueue.insert i t l) ∧
      TouchesOnly s s' (.node i :: .timeoutQ :: cells l) (i :: ids l) := by
  have hlen : l.length < N + 1 := by have := hq.length_le; simp [ids] at this; omega
  obtain ⟨s', e, hr, hd, hf⟩ := enqueueLoop_spec l (N + 1) (s.setDelta i t) [] (by simpa using hq.ring)
    (setDelta_apart hq.delta hi)
    (by simp) hi hlen
  rw [TState.setDelta_self] at hr hd
  refine ⟨s', ?_, ⟨by simpa using hr, hd, nonneg_insert hq.nonneg ht⟩, ?_⟩
  · rw [enqueue, sysDlistPeekHead_eq hq.ring]; exact e
  · refine ⟨fun c hc => by simpa using hf.links c (by simpa using hc), fun j hj => ?_, hf.handled⟩
    rw [hf.delta j hj, TState.setDelta_ne]
    simp only [mem_cons, not_or] at hj
    exact hj.1

/-- **`_abort_timeout` (timeout_q.h:119)** of a queued timeout takes it out; the one behind it
inherits its share, nothing else moves. -/
theorem abortTimeout_queued (hq : QRep s l) (hi : i ∈ ids l) :
    ∃ s', abortTimeout s i = some (0, s') ∧ QRep s' (erase i l) ∧ s'.delta i = INACTIVE ∧
      TouchesOnly s s' (.timeoutQ :: cells l) (ids l) := by
  obtain ⟨d, hd⟩ : ∃ d, (i, d) ∈ l := by simpa [ids] using hi
  obtain ⟨l₁, l₂, rfl⟩ := append_of_mem hd
  have hr := hq.ring
  simp only [cells_append, cells_cons] at hr
  have hnd := hq.nodup
  simp only [ids_append, ids_cons, nodup_append, nodup_cons] at hnd
  have h1 : i ∉ ids l₁ := fun h => hnd.2.2 i h i (by simp) rfl
  have hdi : s.delta i = d := hq.delta (i, d) (by simp)
  have hd0 : 0 ≤ d := hq.nonneg (i, d) (by simp)
  have hact : s.delta i ≠ INACTIVE := by rw [hdi, INACTIVE]; omega
  have her : erase i (l₁ ++ (i, d) :: l₂) = l₁ ++ addHead d l₂ := erase_append h1 d
  have hring' : IsRing (sysDlistRemove s.links (.node i)) .timeoutQ (cells (erase i (l₁ ++ (i, d) :: l₂))) := by
    rw [her]
    have := isRing_remove (l := cells l₁) hr
    simpa [cells] using this
  have hframe : ∀ c, c ∉ Cell.timeoutQ :: cells (l₁ ++ (i, d) :: l₂) →
      (sysDlistRemove s.links (.node i)).next c = s.links.next c ∧
        (sysDlistRemove s.links (.node i)).prev c = s.links.prev c := by
    intro c hc
    obtain ⟨hp, hn⟩ := IsRing.neighbours_mem (l := cells l₁) hr
    rw [sysDlistRemove_eq]
    refine IsRing.unlink_of_ne ?_ ?_ <;> rintro rfl <;>
      simp only [cells_append, cells_cons, mem_cons, mem_append, not_or] at hc hp hn <;> tauto
  have hnn := nonneg_erase (i := i) hq.nonneg
  rcases l₂ with _ | ⟨⟨j, e⟩, l₂⟩
  · have htail : sysDlistIsTail s.links .timeoutQ (.node i) = true := (sysDlistIsTail_iff (l := cells l₁) hr).2 rfl
    refine ⟨{ s.setDelta i INACTIVE with links := sysDlistRemove s.links (.node i) },
      by simp [abortTimeout, hact, htail], ⟨hring', ?_, hnn⟩, by simp, ⟨hframe, ?_, rfl⟩⟩
    · rw [her]
      intro p hp
      simp only [addHead, append_nil] at hp
      exact setDelta_apart (fun p hp => hq.delta p (by simp [hp])) h1 p hp
    · intro k hk
      exact TState.setDelta_ne _ _ (by rintro rfl; simp at hk)
  · have hnt : sysDlistIsTail s.links .timeoutQ (.node i) = false := by
      have := sysDlistIsTail_iff (l := cells l₁) hr
      simpa using this
    have hnx : sysDlistPeekNext s.links .timeoutQ (some (.node i)) = some (.node j) := by
      simpa using sysDlistPeekNext_eq (l := cells l₁) hr
    have hij : i ≠ j := by rintro rfl; simp at hnd
    have hdj : s.delta j = e := hq.delta (j, e) (by simp)
    refine ⟨{ (s.setDelta j (s.delta j + s.delta i)).setDelta i INACTIVE with links := sysDlistRemove s.links (.node i) },
      by simp [abortTimeout, hact, hnt, hnx], ⟨hring', ?_, hnn⟩, by simp, ⟨hframe, ?_, rfl⟩⟩
    · rw [her]
      intro p hp
      simp only [addHead, mem_append, mem_cons] at hp
      have hpi : p.1 ≠ i := by
        rintro rfl
        rcases hp with hp | rfl | hp
        · exact h1 (mem_ids_of_mem hp)
        · exact hij rfl
        · exact hnd.2.1.1 (mem_cons_of_mem _ (mem_ids_of_mem hp))
      refine (TState.setDelta_ne _ _ hpi).trans ?_
      rcases hp with hp | rfl | hp
      · have hpj : p.1 ≠ j := fun h => hnd.2.2 p.1 (mem_ids_of_mem hp) j (by simp) h
        rw [TState.setDelta_ne _ _ hpj]; exact hq.delta p (by simp [hp])
      · simp [hdj, hdi]
      · have hpj : p.1 ≠ j := by
          rintro h
          exact (nodup_cons.1 hnd.2.1.2).1 (h ▸ mem_ids_of_mem (p := p) hp)
        rw [TState.setDelta_ne _ _ hpj]; exact hq.delta p (by simp [hp])
    · intro k hk
      simp only [ids_append, ids_cons, mem_append, mem_cons, not_or] at hk
      exact (TState.setDelta_ne _ _ hk.2.1).trans (TState.setDelta_ne _ _ hk.2.2.1)

theorem abortTimeout_inactive (h : s.delta i = INACTIVE) : abortTimeout s i = some (INACTIVE, s) := by
  simp [abortTimeout, h]

end Zephyr
