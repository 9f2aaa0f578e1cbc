import Zephyr.Kernel.SysClock
/-!
# What a timeout queue promises over whole histories

A history is a list of calls of `_add_timeout`, `_abort_timeout` and of tick announcements, each run
to its end before the next. `pending` is what such a history promises: for every timeout the ticks
it was added with and the ticks announced since. `Meaning` compares that with `_timeout_q` and with
the handler calls an announcement makes.
-/
namespace Zephyr

open Ring DeltaQueue Function Option

variable {N : Nat}

/-! ## One announcement -/

/-- Outside an announcement: `_timeout_q` is `l` and whatever is not queued is inactive. -/
structure Quiescent (s : TState N) (l : List (Fin N × ℤ)) : Prop where
  rep : QRep s l
  idle : ∀ i, i ∉ ids l → s.delta i = INACTIVE

section
variable {h : Fin N → Handler} {s : TState N} {l : List (Fin N × ℤ)} {n : ℤ}

/-- Setting up the local list touches no cell of `_timeout_q`. -/
theorem QRep.initExpired (hq : QRep s l) : QRep { s with links := sysDlistInit s.links .expired } l := by
  refine ⟨hq.ring.frame fun c hc => ?_, hq.delta, hq.nonneg⟩
  have hne : c ≠ .expired := by rintro rfl; simp [cells] at hc
  simp [sysDlistInit, Links.setNext_next_ne, Links.setPrev_prev_ne, hne]

/-- The entries that are due, in the order in which they are handled. -/
def dueList (n : ℤ) (l : List (Fin N × ℤ)) : List (Fin N) := (advance n l).1.reverse

theorem start_run (hq : QRep s l) (hl : l ≠ []) :
    ∃ k s', runSteps h k (.start n, s) = some (.walkHead, s') ∧ QRep s' (advance n l).2 ∧
      ERep s' (advance n l).2 (dueList n l) ∧ s'.handled = s.handled ∧
      ∀ i, i ∉ ids l → s'.delta i = s.delta i := by
  obtain ⟨⟨j, d⟩, l, rfl⟩ := List.exists_cons_of_ne_nil hl
  have hq' := hq.initExpired
  have he' : ERep { s with links := sysDlistInit s.links .expired } ((j, d) :: l) [] :=
    ⟨isRing_init _ _, by simp, by simp⟩
  obtain ⟨k, s', hk, hqs, hes, hh, hd⟩ := dequeue_run (h := h) _ _ [] n hq' he'
  -- the first round of the loop runs under the lock taken at the start
  have hfirst : tickStep h (.start n, s) =
      tickStep h (.dequeue (.node j) n, { s with links := sysDlistInit s.links .expired }) := by
    have hp := sysDlistPeekHead_eq hq'.ring
    simp only [tickStep]
    rw [hp]; rfl
  refine ⟨k, s', ?_, hqs, by simpa [dueList] using hes, hh, hd⟩
  cases k with
  | zero => simp [runSteps, nextPc] at hk
  | succ k => rw [runSteps, hfirst]; exact hk

/-- **`handle_timeouts` (sys_clock.c:170)** undisturbed: it ends, handles what is due in reverse
queue order, and leaves the rest of the queue, plus the one entry that may re-arm itself. -/
theorem handleTimeouts_spec (hq : Quiescent s l) (hc : ∀ i ∈ (dueList n l).dropLast, (h i).rearms = false) :
    ∃ s', HandleTimeouts h n s s' ∧ Quiescent s' (rearmLast h (dueList n l) (advance n l).2) ∧
      s'.handled = s.handled ++ dueList n l := by
  by_cases hl : l = []
  · subst hl
    refine ⟨{ s with links := sysDlistInit s.links .expired }, ⟨1, runSteps_one ?_⟩, ⟨?_, hq.idle⟩,
      by simp [dueList, advance]⟩
    · simp only [tickStep]
      rw [sysDlistPeekHead_eq hq.rep.initExpired.ring]; rfl
    · exact hq.rep.initExpired
  obtain ⟨k₁, s₁, h1, hq₁, he₁, hh₁, hd₁⟩ := start_run (h := h) (n := n) hq.rep hl
  have hids := ids_advance n l
  -- every timeout is due, still queued, or inactive
  have hidle : ∀ i, i ∉ ids (advance n l).2 → i ∉ dueList n l → s₁.delta i = INACTIVE := by
    intro i hi hid
    have : i ∉ ids l := by rw [hids]; simp [hi]; simpa [dueList] using hid
    rw [hd₁ i this, hq.idle i this]
  have h2 := runSteps_trans h1 (runSteps_one (walkHead_step (h := h) he₁))
  cases he : dueList n l with
  | nil =>
    rw [he] at h2 hidle
    exact ⟨s₁, ⟨_, h2⟩, ⟨hq₁, fun i hi => hidle i hi (by simp)⟩, by simp [hh₁]⟩
  | cons i post =>
    rw [he] at h2 hc he₁ hidle
    obtain ⟨k₂, s₂, h3, hq₂, hh₂, hd₂, hin⟩ := walk_run post i s₁ hq₁ (Rest.of_ring he₁.ring) he₁.apart hc
    refine ⟨s₂, ⟨_, runSteps_trans h2 h3⟩, ⟨hq₂, fun k hk => ?_⟩, by rw [hh₂, hh₁]⟩
    by_cases hki : k ∈ i :: post
    · exact hin k hki hk
    · -- not due, and the entry that re-arms itself is due
      have hkl : k ∉ ids (advance n l).2 := by
        intro hkl
        apply hk
        obtain ⟨x, hx⟩ : ∃ x, (i :: post).getLast? = some x := ⟨_, List.getLast?_eq_some_getLast (by simp)⟩
        have hkx : k ≠ x := by rintro rfl; exact hki (List.mem_of_getLast? hx)
        simpa [rearmLast, hx, mem_ids_rearm hkx] using hkl
      rw [hd₂ k hkl hki, hidle k hkl hki]

end

/-! ## Histories -/

/-- Calls that run to their end before the next one; `h` is what is behind each timeout at the time. -/
inductive Op (N : Nat) where
  | add (i : Fin N) (ticks : Nat)
  | abort (i : Fin N)
  | announce (n : Nat) (h : Fin N → Handler)

/-- Ticks asked for and ticks announced since, for a timeout that is promised to expire. -/
abbrev Pending (N : Nat) : Type := Fin N → Option (Nat × Nat)

namespace Pending

def empty : Pending N := fun _ => none

def Due (P : Pending N) (n : Nat) (i : Fin N) : Prop := ∃ p, P i = some p ∧ p.1 ≤ p.2 + n

/-- What is promised after a timeout has been handled. -/
def afterHandler : Handler → Option (Nat × Nat)
  | .timer period => if period > 0 then some (period, 0) else none
  | _ => none

/-- The queue after a handler, where the timeout was not in it. -/
theorem remaining_rearm {h : Fin N → Handler} {l : List (Fin N × ℤ)} {x : Fin N} (hx : x ∉ ids l) (i : Fin N) :
    remaining (rearm h x l) i = if i = x then (afterHandler (h x)).map fun p => (p.1 : ℤ) - p.2 else remaining l i := by
  have hnone := remaining_eq_none_iff.2 hx
  unfold rearm afterHandler
  cases h x with
  | timer p =>
    by_cases hp : p > 0
    · simp [hp, remaining_insert hx]
    · by_cases hi : i = x <;> simp [hp, hi, hnone]
  | _ => by_cases hi : i = x <;> simp [hi, hnone]

theorem afterHandler_of_not {x : Handler} (hx : x.rearms = false) : afterHandler x = none := by
  cases x <;> simp_all [Handler.rearms, afterHandler]

def step (P : Pending N) : Op N → Pending N
  | .add i ticks => update P i (some (ticks, 0))
  | .abort i => update P i none
  | .announce n h => fun i => (P i).bind fun p => if p.1 ≤ p.2 + n then afterHandler (h i) else some (p.1, p.2 + n)

def ofOps (ops : List (Op N)) : Pending N := ops.foldl step empty

end Pending

/-- All timeouts inactive, `_timeout_q` empty. -/
def TState.init : TState N := ⟨⟨id, id⟩, fun _ => INACTIVE, []⟩

/-- A call and the state it leaves. -/
def Op.Exec (s : TState N) : Op N → TState N → Prop
  | .add i ticks, s' => ∀ h, addTimeout h s i ticks = some s'
  | .abort i, s' => ∃ r, abortTimeout s i = some (r, s')
  | .announce n h, s' => HandleTimeouts h n s s'

/-- Calls the callers may make: at least one tick, no timeout added that is still queued. -/
def Legal (P : Pending N) : Op N → Prop
  | .add i ticks => 1 ≤ ticks ∧ P i = none
  | .abort _ => True
  | .announce n _ => 1 ≤ n

/-- No timeout that is due re-arms itself, except the one at the head of `_timeout_q`. -/
def HeadRearms (P : Pending N) (s : TState N) : Op N → Prop
  | .announce n h => ∀ i, P.Due n i → sysDlistPeekHead s.links .timeoutQ ≠ some (.node i) → (h i).rearms = false
  | _ => True

/-- A history all of whose calls satisfy `A`, and the state it leads to. -/
inductive Run (A : Pending N → TState N → Op N → Prop) : List (Op N) → TState N → Prop
  | nil : Run A [] TState.init
  | snoc {ops s op s'} : Run A ops s → A (.ofOps ops) s op → op.Exec s s' → Run A (ops ++ [op]) s'

def Pending.Expires (P : Pending N) : Op N → Fin N → Prop
  | .announce n _, i => P.Due n i
  | _, _ => False

/-- `_timeout_q` of `s` says what is promised. -/
structure Keeps (P : Pending N) (s : TState N) (l : List (Fin N × ℤ)) : Prop where
  quiet : Quiescent s l
  sum : ∀ i, remaining l i = (P i).map fun p => (p.1 : ℤ) - p.2
  early : ∀ i p, P i = some p → p.2 < p.1

namespace Keeps

variable {P : Pending N} {s : TState N} {l : List (Fin N × ℤ)}

theorem init : Keeps (Pending.empty (N := N)) TState.init [] :=
  ⟨⟨⟨⟨by simp [cells], by simp [Chain, TState.init]⟩, by simp, by simp [Nonneg]⟩, fun _ _ => rfl⟩,
    fun _ => rfl, fun i p hp => by simp [Pending.empty] at hp⟩

section

variable (hk : Keeps P s l)

include hk

theorem mem_ids (i : Fin N) : i ∈ ids l ↔ ∃ p, P i = some p := by
  rw [mem_ids_iff, hk.sum i]
  cases P i <;> simp

theorem mem_dueList (n : Nat) (i : Fin N) : i ∈ dueList n l ↔ P.Due n i := by
  rw [dueList, List.mem_reverse, mem_advance_iff hk.quiet.rep.nonneg hk.quiet.rep.nodup, hk.sum i, Pending.Due]
  cases P i with
  | none => simp
  | some p => simp; omega

theorem nodup_dueList (n : ℤ) : (dueList n l).Nodup := by
  have := hk.quiet.rep.nodup
  rw [ids_advance n l] at this
  exact List.nodup_reverse.2 (List.nodup_append.1 this).1

/-- The last entry to be handled is the head of `_timeout_q`. -/
theorem dueList_last {n : ℤ} {i : Fin N} (hi : i ∈ (dueList n l).dropLast) :
    sysDlistPeekHead s.links .timeoutQ ≠ some (.node i) := by
  rw [sysDlistPeekHead_eq hk.quiet.rep.ring]
  have hnd := hk.nodup_dueList n
  cases l with
  | nil => simp [dueList, advance] at hi
  | cons p l =>
    obtain ⟨j, d⟩ := p
    by_cases hd : d ≤ n
    · simp only [dueList, advance, hd, if_true, List.reverse_cons, List.dropLast_concat] at hi hnd
      rw [List.nodup_append] at hnd
      simp only [cells_cons, List.head?_cons, ne_eq, Option.some.injEq, Cell.node.injEq]
      rintro rfl
      exact hnd.2.2 _ hi _ (by simp) rfl
    · simp [dueList, advance, hd] at hi

theorem add {i : Fin N} {t : Nat} (ht : 1 ≤ t) (hi : P i = none) :
    ∃ s', (Op.add i t).Exec s s' ∧ Keeps (P.step (.add i t)) s' (DeltaQueue.insert i t l) ∧ s'.handled = s.handled := by
  have hil : i ∉ ids l := by rw [hk.mem_ids, hi]; simp
  obtain ⟨s', e, hq, hf⟩ := enqueue_spec hk.quiet.rep hil (t := t) (by omega)
  refine ⟨s', fun h => by simp [addTimeout, e]; omega, ⟨⟨hq, fun k hkk => ?_⟩, fun k => ?_, fun k p hp => ?_⟩,
    hf.handled⟩
  · rw [mem_ids_insert, not_or] at hkk
    rw [hf.delta k (by simp [hkk.1, hkk.2]), hk.quiet.idle k hkk.2]
  · rw [remaining_insert hil]
    by_cases hki : k = i
    · simp [hki, Pending.step]
    · simp [hki, Pending.step, hk.sum k]
  · by_cases hki : k = i
    · simp [hki, Pending.step] at hp; subst hp; exact ht
    · simp [hki, Pending.step] at hp; exact hk.early k p hp

theorem abort (i : Fin N) :
    ∃ s', (Op.abort i).Exec s s' ∧ Keeps (P.step (.abort i)) s' (erase i l) ∧ s'.handled = s.handled := by
  have hearly : ∀ k p, P.step (.abort i) k = some p → p.2 < p.1 := by
    intro k p hp
    by_cases hki : k = i
    · simp [hki, Pending.step] at hp
    · simp [hki, Pending.step] at hp; exact hk.early k p hp
  have hsum : ∀ k, remaining (erase i l) k = (P.step (.abort i) k).map fun p => (p.1 : ℤ) - p.2 := by
    intro k
    rw [remaining_erase hk.quiet.rep.nodup]
    by_cases hki : k = i
    · simp [hki, Pending.step]
    · simp [hki, Pending.step, hk.sum k]
  by_cases hil : i ∈ ids l
  · obtain ⟨s', e, hq, hdi, hf⟩ := abortTimeout_queued hk.quiet.rep hil
    refine ⟨s', ⟨0, e⟩, ⟨⟨hq, fun k hkk => ?_⟩, hsum, hearly⟩, hf.handled⟩
    by_cases hki : k = i
    · rw [hki, hdi]
    · have : k ∉ ids l := by
        rw [ids_erase] at hkk
        exact fun h => hkk ((List.mem_erase_of_ne hki).2 h)
      rw [hf.delta k this, hk.quiet.idle k this]
  · have her : erase i l = l := by
      clear hsum hearly hk
      fun_induction erase i l with
      | case1 => rfl
      | case2 => exact absurd List.mem_cons_self hil
      | case3 j d l _ ih => rw [ih fun hm => hil (List.mem_cons_of_mem _ hm)]
    rw [her] at hsum ⊢
    exact ⟨s, ⟨INACTIVE, abortTimeout_inactive (hk.quiet.idle i hil)⟩, ⟨hk.quiet, hsum, hearly⟩, rfl⟩

/-- The queue after an announcement in the terms of what is promised. -/
theorem sum_announce {n : Nat} {h : Fin N → Handler}
    (hc : ∀ i ∈ (dueList n l).dropLast, (h i).rearms = false) (i : Fin N) :
    remaining (rearmLast h (dueList n l) (advance n l).2) i =
      (P.step (.announce n h) i).map fun p => (p.1 : ℤ) - p.2 := by
  have hq := hk.quiet.rep
  have hrest := remaining_advance hq.nonneg hq.nodup (n : ℤ) i
  have hdue := hk.mem_dueList n i
  have hsep : ∀ k ∈ dueList (n : ℤ) l, k ∉ ids (advance (n : ℤ) l).2 := by
    intro k hkd hki
    have := hq.nodup
    rw [ids_advance (n : ℤ) l, List.nodup_append] at this
    exact this.2.2 k (by simpa [dueList] using hkd) k hki rfl
  have hlast : remaining (rearmLast h (dueList n l) (advance n l).2) i = if i ∈ (dueList n l).getLast? then
      (Pending.afterHandler (h i)).map fun p => (p.1 : ℤ) - p.2 else remaining (advance (n : ℤ) l).2 i := by
    unfold rearmLast
    split
    · simp [*]
    · next x hx =>
      rw [Pending.remaining_rearm (hsep x (List.mem_of_getLast? hx)), hx]
      by_cases hix : i = x
      · simp [hix]
      · simp [hix, Ne.symm hix]
  rw [hlast]
  by_cases hid : P.Due n i
  · -- due: gone, unless it is the last one and re-arms itself
    obtain ⟨p, hp, hpn⟩ := hid
    have hmem := hdue.2 ⟨p, hp, hpn⟩
    simp only [Pending.step, hp, bind_some, hpn, if_true]
    split
    · rfl
    · next hne =>
      have hq : (h i).rearms = false := by
        refine hc i ?_
        obtain ⟨x, hx⟩ := Option.ne_none_iff_exists'.1 (mt List.getLast?_eq_none_iff.1 (List.ne_nil_of_mem hmem))
        rw [← List.dropLast_append_getLast? x hx, List.mem_append, List.mem_singleton] at hmem
        exact hmem.resolve_right fun e => hne (e ▸ hx)
      rw [Pending.afterHandler_of_not hq]
      exact remaining_eq_none_iff.2 (hsep i hmem)
  · have hni : i ∉ (dueList n l).getLast? := fun hm => hid (hdue.1 (List.mem_of_getLast? hm))
    rw [if_neg hni, hrest, hk.sum i]
    cases hp : P i with
    | none => simp [Pending.step, hp]
    | some p =>
      have hpn : ¬ p.1 ≤ p.2 + n := fun hle => hid ⟨p, hp, hle⟩
      have hpz : ¬ (p.1 : ℤ) - p.2 ≤ n := by omega
      simp only [map_some, bind_some, hpz, if_false, Pending.step, hp, hpn]
      simp; omega

theorem announce {n : Nat} {h : Fin N → Handler} (hc : HeadRearms P s (.announce n h)) :
    ∃ s', (Op.announce n h).Exec s s' ∧ Keeps (P.step (.announce n h)) s' (rearmLast h (dueList n l) (advance n l).2) ∧
      s'.handled = s.handled ++ dueList n l := by
  have hc' : ∀ i ∈ (dueList n l).dropLast, (h i).rearms = false := by
    intro i hi
    exact hc i ((hk.mem_dueList n i).1 (List.mem_of_mem_dropLast hi)) (hk.dueList_last hi)
  obtain ⟨s', he, hq, hh⟩ := handleTimeouts_spec hk.quiet hc'
  refine ⟨s', he, ⟨hq, hk.sum_announce hc', fun i p hp => ?_⟩, hh⟩
  simp only [Pending.step] at hp
  cases hpi : P i with
  | none => simp [hpi] at hp
  | some q =>
    simp only [hpi, bind_some] at hp
    split at hp
    · unfold Pending.afterHandler at hp
      split at hp
      · split at hp
        · cases hp; assumption
        · cases hp
      · cases hp
    · cases hp; simp only; omega

end

end Keeps

theorem Op.Exec.unique {s s₁ s₂ : TState N} {op : Op N} (h1 : op.Exec s s₁) (h2 : op.Exec s s₂) : s₁ = s₂ := by
  cases op with
  | add i t =>
    have := (h1 fun _ => .thread).symm.trans (h2 fun _ => .thread)
    simpa using this
  | abort i =>
    obtain ⟨_, h1⟩ := h1
    obtain ⟨_, h2⟩ := h2
    have := h1.symm.trans h2
    simp only [Option.some.injEq, Prod.mk.injEq] at this
    exact this.2
  | announce n h =>
    obtain ⟨_, h1⟩ := h1
    obtain ⟨_, h2⟩ := h2
    exact runSteps_done_unique h1 h2

/-- The calls of a history in which only the head of `_timeout_q` re-arms itself. -/
def Tame (P : Pending N) (s : TState N) (op : Op N) : Prop := Legal P op ∧ HeadRearms P s op

/-- One call: it ends, keeps the promise, and handles what expires. -/
theorem Keeps.step {P : Pending N} {s : TState N} {l : List (Fin N × ℤ)} (hk : Keeps P s l) {op : Op N}
    (ht : Tame P s op) :
    ∃ s' l' log, op.Exec s s' ∧ Keeps (P.step op) s' l' ∧ s'.handled = s.handled ++ log ∧ log.Nodup ∧
      ∀ i, i ∈ log ↔ P.Expires op i := by
  cases op with
  | add i t =>
    obtain ⟨s', he, hk', hh⟩ := hk.add ht.1.1 ht.1.2
    exact ⟨s', _, [], he, hk', by simpa using hh, List.nodup_nil, by simp [Pending.Expires]⟩
  | abort i =>
    obtain ⟨s', he, hk', hh⟩ := hk.abort i
    exact ⟨s', _, [], he, hk', by simpa using hh, List.nodup_nil, by simp [Pending.Expires]⟩
  | announce n h =>
    obtain ⟨s', he, hk', hh⟩ := hk.announce ht.2
    exact ⟨s', _, dueList n l, he, hk', hh, hk.nodup_dueList n, hk.mem_dueList n⟩

theorem Run.keeps {ops : List (Op N)} {s : TState N} (hr : Run Tame ops s) : ∃ l, Keeps (.ofOps ops) s l := by
  induction hr with
  | nil => exact ⟨[], Keeps.init⟩
  | snoc _ ht he ih =>
    obtain ⟨l, hk⟩ := ih
    obtain ⟨s', l', _, he', hk', _⟩ := hk.step ht
    obtain rfl := he.unique he'
    exact ⟨l', by simpa [Pending.ofOps] using hk'⟩

/-- What a history promises, in the state `s` it has led to: the differences add up to the ticks
that are left, no timeout is overdue, and a call that satisfies `A` ends and handles exactly the
timeouts whose ticks run out in it, each once. -/
structure Meaning (A : Pending N → TState N → Op N → Prop) (ops : List (Op N)) (s : TState N) : Prop where
  sum : ∃ l, QRep s l ∧ ∀ i, remaining l i = (Pending.ofOps ops i).map fun p => (p.1 : ℤ) - p.2
  early : ∀ i p, Pending.ofOps ops i = some p → p.2 < p.1
  ends : ∀ op, A (.ofOps ops) s op → ∃ s', op.Exec s s'
  expires : ∀ op s', A (.ofOps ops) s op → op.Exec s s' →
    ∃ log, s'.handled = s.handled ++ log ∧ log.Nodup ∧ ∀ i, i ∈ log ↔ (Pending.ofOps ops).Expires op i

/-- **`_add_timeout`, `_abort_timeout`, `handle_timeouts` (timeout_q.h:119-262, sys_clock.c:170-253).**
In every history in which no due timeout but the head of `_timeout_q` re-arms itself, the queue means
what was asked for. -/
theorem run_meaning {ops : List (Op N)} {s : TState N} (hr : Run Tame ops s) : Meaning Tame ops s := by
  obtain ⟨l, hk⟩ := hr.keeps
  refine ⟨⟨l, hk.quiet.rep, hk.sum⟩, hk.early, fun op ht => ?_, fun op s' ht he => ?_⟩
  · obtain ⟨s', _, _, he, _⟩ := hk.step ht
    exact ⟨s', he⟩
  · obtain ⟨s'', _, log, he', _, hh, hnd, hiff⟩ := hk.step ht
    obtain rfl := he.unique he'
    exact ⟨log, hh, hnd, hiff⟩

/-- Three ticks for one timeout, five for a timer of period 2, four ticks announced at once. -/
theorem run_meaning_two : ∃ s : TState 2,
    Run Tame [.add 0 3, .add 1 5, .announce 4 ![.thread, .timer 2]] s ∧
      Meaning Tame [.add 0 3, .add 1 5, .announce 4 ![.thread, .timer 2]] s := by
  obtain ⟨s₁, e₁, k₁, -⟩ := (Keeps.init (N := 2)).add (i := 0) (t := 3) (by decide) rfl
  obtain ⟨s₂, e₂, k₂, -⟩ := k₁.add (i := 1) (t := 5) (by decide) (by decide)
  have hc : HeadRearms (Pending.ofOps [.add 0 3, .add 1 5]) s₂ (.announce 4 ![.thread, .timer 2]) := by
    intro i hi _
    obtain rfl : i = 0 := by
      by_contra hne
      obtain rfl : i = 1 := by omega
      obtain ⟨p, hp, hle⟩ := hi
      obtain rfl : (5, 0) = p := by simpa [Pending.ofOps, Pending.step] using hp
      simp at hle
    rfl
  obtain ⟨s₃, e₃, -⟩ := k₂.announce hc
  have r₁ : Run Tame [.add 0 3] s₁ := Run.nil.snoc ⟨⟨by decide, rfl⟩, trivial⟩ e₁
  have r₂ : Run Tame [.add 0 3, .add 1 5] s₂ := r₁.snoc ⟨⟨by decide, by decide⟩, trivial⟩ e₂
  have r₃ : Run Tame [.add 0 3, .add 1 5, .announce 4 ![.thread, .timer 2]] s₃ :=
    r₂.snoc ⟨show 1 ≤ 4 by decide, hc⟩ e₃
  exact ⟨s₃, r₃, run_meaning r₃⟩

/-- Timer 0 of period 5 and thread 1 expire together; 0 is behind 1 in `_timeout_q`. Timeout 2 has
ten ticks and is handled in the first of them, 1 is not handled at all, and the announcement goes on
to use the head of `_timeout_q` as a timeout. -/
theorem rearmed_not_meaning : ∃ s : TState 3,
    Run (fun P _ => Legal P) [.add 2 10, .add 0 1, .add 1 1] s ∧
      Legal (.ofOps [.add 2 10, .add 0 1, .add 1 1]) (.announce 1 ![.timer 5, .thread, .thread]) ∧
      (runSteps ![.timer 5, .thread, .thread] 9 (.start 1, s)).map (·.2.handled) = some [0, 2] ∧
      ¬ Meaning (fun P _ => Legal P) [.add 2 10, .add 0 1, .add 1 1] s := by
  have hadd : ∀ (s : TState 3) (i : Fin 3) (t : Nat) (hs : (enqueue s i t).isSome),
    t ≠ 0 → (Op.add i t).Exec s ((enqueue s i t).get hs) :=
    fun s i t hs ht h => by simp [addTimeout, ht]
  have r₁ : Run (fun P _ => Legal P) [.add 2 10] _ := Run.nil.snoc ⟨by decide, rfl⟩ (hadd _ _ _ (by decide) (by decide))
  have r₂ : Run (fun P _ => Legal P) [.add 2 10, .add 0 1] _ :=
    r₁.snoc ⟨by decide, by decide⟩ (hadd _ _ _ (by decide) (by decide))
  refine ⟨_, r₂.snoc ⟨by decide, by decide⟩ (hadd _ _ _ (by decide) (by decide)), le_refl 1, by decide, fun hm => ?_⟩
  obtain ⟨s', k, hk⟩ := hm.ends (.announce 1 ![.timer 5, .thread, .thread]) (by simp [Legal])
  have hstuck : ∀ {h : Fin 3 → Handler} {s}, (∃ c ∈ runSteps h 9 (.start 1, s),
    c.1 ≠ .done ∧ tickStep h c = none) → runSteps h k (.start 1, s) ≠ some (.done, s') := by
    rintro h s ⟨c, hc, hpc, hnone⟩
    exact runSteps_stuck hc hpc hnone
  exact hstuck (by decide) hk

end Zephyr
