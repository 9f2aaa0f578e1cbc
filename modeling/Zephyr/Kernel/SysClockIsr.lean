import Zephyr.Kernel.TimeoutRuns
/-!
# Nested interrupts during a tick announcement

Between two interrupt-locked sections of `handle_timeouts` an ISR may call `_add_timeout` and
`_abort_timeout` any number of times. `Interleaved` is every state such a mix of steps leads to.
`Safe` says which calls do not pull the ground from under the two raw pointers the announcement
keeps across its windows: `next` while it dequeues (sys_clock.c:246), the loop variable while it walks
over `expired` (timeout_q.h:114).
-/
namespace Zephyr

open Ring DeltaQueue Function List

variable {N : Nat}

/-- What happens next: a step of the announcement, or a call from a nested ISR. -/
inductive Ev (N : Nat) where
  | tick
  | add (i : Fin N) (ticks : Nat)
  | abort (i : Fin N)

/-- The machine and two records of its past: the ticks that were left at the start, for every timeout
queued then whose abort has not succeeded since; and who was aborted and not added again. -/
structure IsrState (N : Nat) where
  pc : Pc N
  st : TState N
  orig : Fin N → Option ℤ
  aborted : Fin N → Bool

/-- A handler that re-arms its timeout adds it again. -/
def clearAborted (h : Fin N → Handler) (c : IsrState N) : Fin N → Bool :=
  match c.pc with
  | .handler i => if (h i).rearms then update c.aborted i false else c.aborted
  | _ => c.aborted

def isrStep (h : Fin N → Handler) (c : IsrState N) : Ev N → Option (IsrState N)
  | .tick => (tickStep h (c.pc, c.st)).map fun p => { c with pc := p.1, st := p.2, aborted := clearAborted h c }
  | .add i ticks =>
    (addTimeout h c.st i ticks).map fun s => { c with st := s, aborted := update c.aborted i false }
  | .abort i => (abortTimeout c.st i).map fun p =>
    { c with
      st := p.2
      orig := if p.1 = (0 : ℤ) then update c.orig i none else c.orig
      aborted := update c.aborted i true }

/-- Callers add inactive timeouts only, for at least one tick. -/
def IsrLegal (c : IsrState N) : Ev N → Prop
  | .add i ticks => 1 ≤ ticks ∧ c.st.delta i = INACTIVE
  | _ => True

/-- `i` is the tail of `expired`. -/
def ExpiredTail (s : TState N) (i : Fin N) : Prop := s.links.prev .expired = .node i

/-- The calls that leave the announcement's pointers valid. -/
def Safe (h : Fin N → Handler) (c : IsrState N) : Ev N → Prop
  -- nothing is queued in front of the saved `next`; the timeout at hand goes back only from the tail
  | .add i ticks => (1 ≤ ticks ∧ c.st.delta i = INACTIVE) ∧
      (∀ j r, c.pc = .dequeue (.node j) r → c.st.delta j < ticks) ∧
      (c.pc = .handler i ∨ c.pc = .walkNext i → ExpiredTail c.st i)
  -- neither pointer is aborted, nor the unhandled tail of `expired`
  | .abort i => (∀ r, c.pc ≠ .dequeue (.node i) r) ∧ c.pc ≠ .walk i ∧ ¬ (c.st.delta i < INACTIVE ∧ ExpiredTail c.st i)
  | .tick => ∀ i, c.pc = .handler i → (h i).rearms = true → ExpiredTail c.st i ∧ c.st.delta i = INACTIVE

/-- The states of an announcement of `n` ticks begun in `s`, whose events all satisfy `A`. -/
inductive Interleaved (A : IsrState N → Ev N → Prop) (h : Fin N → Handler) (n : ℤ) (s : TState N)
    (orig : Fin N → Option ℤ) : IsrState N → Prop
  | start {pc st} : tickStep h (.start n, s) = some (pc, st) → Interleaved A h n s orig ⟨pc, st, orig, fun _ => false⟩
  | step {c ev c'} : Interleaved A h n s orig c → A c ev → isrStep h c ev = some c' → Interleaved A h n s orig c'

/-! ## The invariant -/

/-- Every timeout is queued (`l`), expired and still to be handled (`todo`), or inactive. -/
structure Book (s : TState N) (l : List (Fin N × ℤ)) (todo : List (Fin N)) : Prop where
  rep : QRep s l
  apart : ∀ i ∈ todo, i ∉ ids l
  marked : ∀ i ∈ todo, s.delta i < INACTIVE
  idle : ∀ i, i ∉ ids l → i ∉ todo → s.delta i = INACTIVE

/-- How the timeouts in `todo` hang together at each point of the announcement. -/
def Linked (s : TState N) (l : List (Fin N × ℤ)) (todo : List (Fin N)) : Pc N → Prop
  | .start _ => False
  | .dequeue next r => (∃ j d l', next = .node j ∧ l = (j, d) :: l') ∧ 0 ≤ r ∧ IsRing s.links .expired (todo.map .node)
  | .walkHead => IsRing s.links .expired (todo.map .node)
  | .walk i => ∃ post, todo = i :: post ∧ Rest s i post ∧ Chain s.links (.node i) (post.map .node) .expired
  | .handler i | .walkNext i => Rest s i todo ∧ (todo ≠ [] → i ∉ ids l)
  | .done => todo = []

/-- What is known of a timeout that had `q` ticks left at the start: while dequeuing, the residue `r`
makes up for what has been announced to it; afterwards its fate is sealed. -/
def Promise (n : ℤ) (l : List (Fin N × ℤ)) (todo new : List (Fin N)) (orig : Fin N → Option ℤ) : Pc N → Prop
  | .dequeue _ r => new = [] ∧ ∀ i q, orig i = some q → (i ∈ todo ∧ q ≤ n) ∨ remaining l i = some (q + r - n)
  | _ => ∀ i q, orig i = some q → ((i ∈ new ∨ i ∈ todo) ↔ q ≤ n)

/-- `new` are the calls made by this announcement. -/
structure IsrInv (n : ℤ) (log : List (Fin N)) (c : IsrState N) (l : List (Fin N × ℤ)) (todo new : List (Fin N)) :
    Prop where
  book : Book c.st l todo
  linked : Linked c.st l todo c.pc
  promise : Promise n l todo new c.orig c.pc
  handled : c.st.handled = log ++ new
  nodup : (new ++ todo).Nodup
  aborted : ∀ i, c.aborted i = true → c.st.delta i = INACTIVE

variable {h : Fin N → Handler} {k i : Fin N} {s : TState N} {todo : List (Fin N)} {l : List (Fin N × ℤ)}
    {pc : Pc N} {n : ℤ}

namespace Book

variable {s s' : TState N} {l : List (Fin N × ℤ)} {todo : List (Fin N)} {i : Fin N}

theorem queued_active (hb : Book s l todo) (hi : i ∈ ids l) : 0 ≤ s.delta i := by
  obtain ⟨d, hd⟩ : ∃ d, (i, d) ∈ l := by simpa [ids] using hi
  rw [hb.rep.delta (i, d) hd]; exact hb.rep.nonneg (i, d) hd

theorem inactive (hb : Book s l todo) (hi : s.delta i = INACTIVE) : i ∉ ids l ∧ i ∉ todo := by
  refine ⟨fun h => ?_, fun h => ?_⟩
  · have := hb.queued_active h
    rw [hi, INACTIVE] at this; omega
  · have := hb.marked i h
    rw [hi] at this; exact absurd this (lt_irrefl _)

theorem add (hb : Book s l todo) (hi : s.delta i = INACTIVE) {t : Nat} (ht : 1 ≤ t) :
    ∃ s', addTimeout h s i t = some s' ∧ Book s' (DeltaQueue.insert i t l) todo ∧
      TouchesOnly s s' (.node i :: .timeoutQ :: cells l) (i :: ids l) := by
  obtain ⟨hil, hit⟩ := hb.inactive hi
  obtain ⟨s', e, hq, hf⟩ := enqueue_spec hb.rep hil (t := t) (by omega)
  have hne : ∀ k ∈ todo, k ≠ i := fun k hk e => hit (e ▸ hk)
  refine ⟨s', by simp [addTimeout, e]; omega, ⟨hq, fun k hk => ?_, fun k hk => ?_, fun k hkl hkt => ?_⟩, hf⟩
  · rw [mem_ids_insert, not_or]; exact ⟨hne k hk, hb.apart k hk⟩
  · rw [hf.delta k (by simp [hne k hk, hb.apart k hk])]; exact hb.marked k hk
  · rw [mem_ids_insert, not_or] at hkl
    rw [hf.delta k (by simp [hkl.1, hkl.2]), hb.idle k hkl.2 hkt]

theorem abortQueued (hb : Book s l todo) (hi : i ∈ ids l) :
    ∃ s', abortTimeout s i = some (0, s') ∧ Book s' (erase i l) todo ∧ s'.delta i = INACTIVE ∧
      TouchesOnly s s' (.timeoutQ :: cells l) (ids l) := by
  obtain ⟨s', e, hq, hdi, hf⟩ := abortTimeout_queued hb.rep hi
  refine ⟨s', e, ⟨hq, fun k hk => ?_, fun k hk => ?_, fun k hkl hkt => ?_⟩, hdi, hf⟩
  · rw [ids_erase]; exact fun hm => hb.apart k hk (mem_of_mem_erase hm)
  · rw [hf.delta k (hb.apart k hk)]; exact hb.marked k hk
  · by_cases hki : k = i
    · rw [hki, hdi]
    · rw [ids_erase, mem_erase_of_ne hki] at hkl
      rw [hf.delta k hkl, hb.idle k hkl hkt]

/-- The state after an abort of the expired entry `i` with `k` behind it: `k` gets a share that means
nothing, both stay below `_INACTIVE`. -/
def abortExpired (s : TState N) (i k : Fin N) : TState N :=
  { (s.setDelta k (s.delta k + s.delta i)).setDelta i INACTIVE with links := s.links.unlink (.node i) }

@[simp] theorem abortExpired_links (s : TState N) (i k : Fin N) :
    (abortExpired s i k).links = s.links.unlink (.node i) := rfl

theorem abortExpired_delta_ne {x : Fin N} (hxi : x ≠ i) (hxk : x ≠ k) : (abortExpired s i k).delta x = s.delta x :=
  (TState.setDelta_ne _ _ hxi).trans (TState.setDelta_ne _ _ hxk)

theorem not_tail (hb : Book s l todo) (hi : i ∉ ids l) : s.links.prev .timeoutQ ≠ .node i := by
  intro e
  have := hb.rep.ring.prev_head_mem
  simp [e, hi] at this

/-- `_abort_timeout` of a timeout that is not in `_timeout_q` takes the next one on its list for the successor. -/
theorem abortTimeout_eq (hb : Book s l todo) (hi : i ∈ todo) :
    abortTimeout s i = match s.links.next (.node i) with
      | .node k => some (0, abortExpired s i k)
      | _ => none := by
  have hact : s.delta i ≠ INACTIVE := (hb.marked i hi).ne
  have htail := hb.not_tail (hb.apart i hi)
  simp only [abortTimeout, hact, if_false, sysDlistIsTail, htail, decide_false, sysDlistPeekNext,
    sysDlistPeekNextNoCheck, Ne.symm htail, Bool.false_eq_true]
  cases s.links.next (.node i) with
  | node k =>
    rw [Option.map_some, TState.setDelta_links, sysDlistRemove_eq]
    rfl
  | timeoutQ | expired => rfl

theorem abortTodo {p₁ p₂ : List (Fin N)} (hb : Book s l (p₁ ++ i :: k :: p₂)) (hik : i ≠ k)
    (hnx : s.links.next (.node i) = .node k) (hpv : s.links.prev (.node i) ∉ Cell.timeoutQ :: cells l)
    (hnd : (p₁ ++ i :: k :: p₂).Nodup) :
    abortTimeout s i = some (0, abortExpired s i k) ∧ Book (abortExpired s i k) l (p₁ ++ k :: p₂) := by
  have hil : i ∉ ids l := hb.apart i (by simp)
  have hkl : k ∉ ids l := hb.apart k (by simp)
  have hsub : ∀ x ∈ p₁ ++ k :: p₂, x ∈ p₁ ++ i :: k :: p₂ := by
    intro x hx
    simp only [mem_append, mem_cons] at hx ⊢; tauto
  have hxi : ∀ x ∈ p₁ ++ k :: p₂, x ≠ i := by
    rintro x hx rfl
    simp only [nodup_append, nodup_cons, mem_append, mem_cons] at hnd hx
    rcases hx with hx | hx
    · exact hnd.2.2 x hx x (.inl rfl) rfl
    · exact hnd.2.1.1 hx
  refine ⟨?_, ⟨⟨?_, fun p hp => ?_, hb.rep.nonneg⟩, fun x hx => hb.apart x (hsub x hx), fun x hx => ?_,
    fun x hxl hxt => ?_⟩⟩
  · rw [hb.abortTimeout_eq (by simp), hnx]
  · -- both neighbours lie outside the queue's ring
    refine hb.rep.ring.frame fun c hc => ?_
    refine IsRing.unlink_of_ne (by rintro rfl; exact hpv hc) ?_
    rw [hnx]; rintro rfl; simp [hkl] at hc
  · have hpl := mem_ids_of_mem hp
    rw [abortExpired_delta_ne (by rintro e; exact hil (e ▸ hpl)) (by rintro e; exact hkl (e ▸ hpl))]
    exact hb.rep.delta p hp
  · have hne := hxi x hx
    have hmk := hb.marked k (by simp)
    have hmi := hb.marked i (by simp)
    by_cases hxk : x = k
    · subst hxk
      have : (abortExpired s i x).delta x = s.delta x + s.delta i :=
        (TState.setDelta_ne _ _ hne).trans (TState.setDelta_self _ _ _)
      rw [this]; rw [INACTIVE] at *; omega
    · rw [abortExpired_delta_ne hne hxk]; exact hb.marked x (hsub x hx)
  · by_cases hxi' : x = i
    · subst hxi'; simp [abortExpired]
    · have hxk : x ≠ k := by rintro rfl; simp at hxt
      rw [abortExpired_delta_ne hxi' hxk]
      refine hb.idle x hxl ?_
      simp only [mem_append, mem_cons] at hxt ⊢; tauto

end Book

/-- An entry of a chain that ends in the head of `expired` has one behind it unless it is the tail. -/
theorem chain_split {a : Cell N}
    (hc : Chain s.links a (todo.map .node) .expired) (hi : i ∈ todo) (ht : ¬ ExpiredTail s i) :
    ∃ p₁ k p₂, todo = p₁ ++ i :: k :: p₂ ∧ s.links.next (.node i) = .node k ∧
      s.links.prev (.node i) ∈ a :: p₁.map .node := by
  obtain ⟨p₁, r, rfl⟩ := append_of_mem hi
  rw [map_append, map_cons, Chain.append_iff] at hc
  cases r with
  | nil => exact absurd hc.2.2 ht
  | cons k p₂ => exact ⟨p₁, k, p₂, rfl, hc.2.1.1, hc.1.prev_mem⟩

/-- Behind an entry of such a chain there is another one, or the head of the list. -/
theorem chain_next {post : List (Fin N)} (hc : Chain s.links (.node i) (post.map .node) .expired)
    (hnd : (i :: post).Nodup) :
    s.links.next (.node i) = .expired ∨ ∃ k ∈ post, k ≠ i ∧ s.links.next (.node i) = .node k := by
  refine (mem_cons.1 hc.next_mem).imp_right fun hm => ?_
  obtain ⟨k, hk, he⟩ := mem_map.1 hm
  exact ⟨k, hk, fun e => (nodup_cons.1 hnd).1 (e ▸ hk), he.symm⟩

theorem chain_next_mem {a : Cell N} (hc : Chain s.links a (todo.map .node) .expired) (hi : i ∈ todo)
    (hnd : todo.Nodup) :
    s.links.next (.node i) = .expired ∨ ∃ k ∈ todo, k ≠ i ∧ s.links.next (.node i) = .node k := by
  obtain ⟨p, r, rfl⟩ := append_of_mem hi
  rw [map_append, map_cons, Chain.append_iff] at hc
  exact (chain_next hc.2 (nodup_append.1 hnd).2.1).imp_right fun ⟨k, hk, h⟩ => ⟨k, by simp [hk], h⟩

/-! ## Calls from an ISR -/

/-- The cells whose links matter at a point of the announcement. -/
def footprint (todo : List (Fin N)) : Pc N → List (Cell N)
  | .handler i | .walkNext i => if todo = [] then [.expired] else .node i :: .expired :: todo.map .node
  | _ => .expired :: todo.map .node

theorem mem_footprint {x : Cell N} (hx : x ∈ footprint todo pc) :
    x ∈ Cell.expired :: todo.map .node ∨ ∃ i, (pc = .handler i ∨ pc = .walkNext i) ∧ todo ≠ [] ∧ x = .node i := by
  cases pc with
  | handler i | walkNext i =>
    by_cases ht : todo = []
    · simp only [footprint, ht, if_true, mem_singleton] at hx
      exact .inl (by simp [hx])
    · simp only [footprint, ht, if_false, mem_cons] at hx
      rcases hx with rfl | hx
      · exact .inr ⟨i, by simp, ht, rfl⟩
      · exact .inl (mem_cons.2 hx)
  | start _ | dequeue _ _ | walkHead | walk _ | done => exact .inl hx

theorem Linked.frame {s' : TState N} {l' : List (Fin N × ℤ)} (hl : Linked s l todo pc)
    (hc : ∀ c ∈ footprint todo pc, s'.links.next c = s.links.next c ∧ s'.links.prev c = s.links.prev c)
    (hhd : ∀ j r, pc = .dequeue (.node j) r → ∃ d l₁, l' = (j, d) :: l₁)
    (hcur : ∀ i, pc = .handler i ∨ pc = .walkNext i → todo ≠ [] → i ∉ ids l') : Linked s' l' todo pc := by
  cases pc with
  | start ticks => exact hl
  | dequeue next r =>
    obtain ⟨⟨j, d, l₁, rfl, -⟩, hr, hring⟩ := hl
    obtain ⟨d', l₂, rfl⟩ := hhd j r rfl
    exact ⟨⟨j, d', l₂, rfl, rfl⟩, hr, hring.frame hc⟩
  | walkHead => exact IsRing.frame hl hc
  | walk i =>
    obtain ⟨post, rfl, hrest, hchain⟩ := hl
    refine ⟨post, rfl, hrest.frame (hc .expired (by simp [footprint])).2 fun _ c hm => hc c ?_,
      hchain.frame (fun c hm => (hc c ?_).1) fun c hm => (hc c ?_).2⟩
    · simpa [footprint] using Or.inr hm
    · simpa [footprint] using Or.inr (mem_cons.1 hm)
    · simp only [footprint, map_cons, mem_cons] at hm ⊢; tauto
  | handler i | walkNext i =>
    obtain ⟨hrest, -⟩ := hl
    refine ⟨hrest.frame (hc .expired ?_).2 fun hne c hm => hc c ?_, hcur i (by simp)⟩
    · by_cases ht : todo = [] <;> simp [footprint, ht]
    · simp only [footprint, hne, if_false, mem_cons] at hm ⊢; tauto
  | done => exact hl

theorem Promise.mono {l' : List (Fin N × ℤ)} {todo' new : List (Fin N)}
    {orig orig' : Fin N → Option ℤ} (hp : Promise n l todo new orig pc)
    (ho : ∀ i q, orig' i = some q → orig i = some q)
    (hq : ∀ i q, orig' i = some q → (i ∈ todo' ↔ i ∈ todo) ∧ ∀ r, remaining l i = some r → remaining l' i = some r) :
    Promise n l' todo' new orig' pc := by
  cases pc with
  | dequeue next r =>
    refine ⟨hp.1, fun i q hi => ?_⟩
    obtain ⟨htd, hrem⟩ := hq i q hi
    exact (hp.2 i q (ho i q hi)).imp (fun h => ⟨htd.2 h.1, h.2⟩) (hrem _)
  | start _ | walkHead | walk _ | handler _ | walkNext _ | done =>
    intro i q hi
    rw [(hq i q hi).1]
    exact hp i q (ho i q hi)

theorem Rest.unlink {x : Fin N} {p₁ p₂ : List (Fin N)} (hr : Rest s x (p₁ ++ i :: k :: p₂)) :
    Rest (Book.abortExpired s i k) x (p₁ ++ k :: p₂) := by
  have hsub : (x :: (p₁ ++ k :: p₂)).Sublist (x :: (p₁ ++ i :: k :: p₂)) :=
    cons_sublist_cons.2 ((sublist_cons_self _ _).append_left _)
  refine ⟨hr.nodup.sublist hsub, by simp, fun _ => ?_⟩
  have hc := hr.chain (by simp)
  have hnd : (Cell.node x :: (p₁ ++ i :: k :: p₂).map Cell.node).Nodup := by
    simpa using hr.nodup.map (f := Cell.node) fun a b e => Cell.node.inj e
  rw [map_append, map_cons] at hc hnd
  simpa using hc.unlink hnd (by simp)

/-- An abort of an expired entry other than the tail and the one the walk has fetched. -/
theorem Linked.abortTodo
    (hl : Linked s l todo pc) (hi : i ∈ todo) (hw : pc ≠ .walk i) (ht : ¬ ExpiredTail s i) :
    ∃ p₁ k p₂, todo = p₁ ++ i :: k :: p₂ ∧ s.links.next (.node i) = .node k ∧
      s.links.prev (.node i) ∈ footprint todo pc ∧ Linked (Book.abortExpired s i k) l (p₁ ++ k :: p₂) pc := by
  have hring : IsRing s.links .expired (todo.map .node) → ∃ p₁ k p₂, todo = p₁ ++ i :: k :: p₂ ∧
      s.links.next (.node i) = .node k ∧ s.links.prev (.node i) ∈ Cell.expired :: todo.map Cell.node ∧
      IsRing (Book.abortExpired s i k).links .expired ((p₁ ++ k :: p₂).map .node) := by
    intro hr
    obtain ⟨p₁, k, p₂, rfl, hn, hp⟩ := chain_split hr.chain hi ht
    refine ⟨p₁, k, p₂, rfl, hn, ?_, ?_⟩
    · simp only [map_append, mem_cons, mem_append] at hp ⊢; tauto
    · rw [map_append, map_cons] at hr
      simpa using hr.unlink
  cases pc with
  | start _ => exact hl.elim
  | dequeue next r =>
    obtain ⟨hhd, hr, hri⟩ := hl
    obtain ⟨p₁, k, p₂, e, hn, hp, hri'⟩ := hring hri
    exact ⟨p₁, k, p₂, e, hn, hp, hhd, hr, hri'⟩
  | walkHead => exact hring hl
  | walk x =>
    obtain ⟨post, rfl, hrest, -⟩ := hl
    have hxi : i ≠ x := fun e => hw (by rw [e])
    have hip : i ∈ post := (mem_cons.1 hi).resolve_left hxi
    obtain ⟨p₁, k, p₂, rfl, hn, hp⟩ := chain_split (hrest.chain (ne_nil_of_mem hip)) hip ht
    refine ⟨x :: p₁, k, p₂, by simp, hn, ?_, ⟨p₁ ++ k :: p₂, by simp, hrest.unlink, hrest.unlink.chain (by simp)⟩⟩
    simp only [footprint, map_cons, map_append, mem_cons, mem_append] at hp ⊢; tauto
  | handler x | walkNext x =>
    obtain ⟨hrest, hx⟩ := hl
    have hne := ne_nil_of_mem hi
    obtain ⟨p₁, k, p₂, rfl, hn, hp⟩ := chain_split (hrest.chain hne) hi ht
    refine ⟨p₁, k, p₂, rfl, hn, ?_, hrest.unlink, fun _ => hx hne⟩
    simp only [footprint, hne, if_false, map_append, mem_cons, mem_append] at hp ⊢; tauto
  | done => rw [Linked] at hl; subst hl; simp at hi

theorem Linked.next (hl : Linked s l todo pc) (hi : i ∈ todo) (hnd : todo.Nodup) :
    s.links.next (.node i) = .expired ∨ ∃ k ∈ todo, k ≠ i ∧ s.links.next (.node i) = .node k := by
  cases pc with
  | start _ => exact hl.elim
  | dequeue next r => exact chain_next_mem hl.2.2.chain hi hnd
  | walkHead => exact chain_next_mem (IsRing.chain hl) hi hnd
  | walk x =>
    obtain ⟨post, rfl, -, hchain⟩ := hl
    have hmore : ∀ {p : Fin N → Prop}, (∃ k ∈ post, p k) → ∃ k ∈ x :: post, p k := fun ⟨k, hk, h⟩ =>
      ⟨k, mem_cons_of_mem _ hk, h⟩
    rcases mem_cons.1 hi with rfl | hi
    · exact (chain_next hchain hnd).imp_right hmore
    · exact (chain_next_mem hchain hi (nodup_cons.1 hnd).2).imp_right hmore
  | handler x | walkNext x => exact chain_next_mem (hl.1.chain (ne_nil_of_mem hi)) hi hnd
  | done => rw [Linked] at hl; subst hl; simp at hi

/-- A bound on the statements that are left when nobody interferes. -/
def stepsLeft (l : List (Fin N × ℤ)) (todo : List (Fin N)) : Pc N → Nat
  | .dequeue _ _ => 4 * l.length + 3 * todo.length + 2
  | .handler _ => 3 * todo.length + 2
  | .walkHead | .walkNext _ => 3 * todo.length + 1
  | .walk _ => 3 * todo.length
  | .start _ | .done => 0

/-- A statement of the announcement brings it nearer to its end and keeps the invariant. -/
def Ticks (h : Fin N → Handler) (n : ℤ) (log : List (Fin N)) (c : IsrState N) (l : List (Fin N × ℤ))
    (todo : List (Fin N)) : Prop :=
  ∃ c' l' todo' new', isrStep h c .tick = some c' ∧ IsrInv n log c' l' todo' new' ∧
  stepsLeft l' todo' c'.pc < stepsLeft l todo c.pc

namespace IsrInv

variable {h : Fin N → Handler} {n : ℤ} {log : List (Fin N)} {c : IsrState N} {l : List (Fin N × ℤ)}
  {todo new : List (Fin N)}

section

variable (hv : IsrInv n log c l todo new)

include hv

theorem at_hand (hk : c.pc = .handler k ∨ c.pc = .walkNext k) : Rest c.st k todo ∧ (todo ≠ [] → k ∉ ids l) := by
  have hl := hv.linked
  rcases hk with hk | hk <;> rw [hk] at hl <;> exact hl

/-- The saved `next` is the head of `_timeout_q`. -/
theorem next_head {j : Fin N} {r : ℤ} (hpc : c.pc = .dequeue (.node j) r) : ∃ d l₁, l = (j, d) :: l₁ := by
  have hl := hv.linked
  rw [hpc] at hl
  obtain ⟨⟨j', d, l₁, hj, rfl⟩, -⟩ := hl
  obtain rfl : j = j' := by simpa using hj
  exact ⟨d, l₁, rfl⟩

/-- The footprint lies outside `_timeout_q`. -/
theorem footprint_apart {x : Cell N} (hx : x ∈ footprint todo c.pc) : x ∉ Cell.timeoutQ :: cells l := by
  rcases mem_footprint hx with hx | ⟨i, hi, htd, rfl⟩
  · rcases mem_cons.1 hx with rfl | hx
    · simp [cells]
    · obtain ⟨k, hk, rfl⟩ := mem_map.1 hx
      simpa using hv.book.apart k hk
  · simpa using (hv.at_hand hi).2 htd

theorem add {t : Nat} (hs : Safe h c (.add i t)) :
    ∃ c' l', isrStep h c (.add i t) = some c' ∧ IsrInv n log c' l' todo new := by
  obtain ⟨⟨ht, hi⟩, hnext, hcur⟩ := hs
  obtain ⟨hil, hit⟩ := hv.book.inactive hi
  obtain ⟨s', e, hb, hf⟩ := hv.book.add hi (h := h) ht
  -- the timeout at hand is added back only when nothing is left behind it
  have hne : ∀ k, c.pc = .handler k ∨ c.pc = .walkNext k → todo ≠ [] → k ≠ i := by
    rintro k hk hne rfl
    exact hne ((hv.at_hand hk).1.tail_iff.1 (hcur hk))
  have hfoot : ∀ x ∈ footprint todo c.pc, x ≠ .node i := by
    rintro x hx rfl
    rcases mem_footprint hx with hx | ⟨k, hk, htd, he⟩
    · simp [hit] at hx
    · exact hne k hk htd (Cell.node.inj he).symm
  refine ⟨{ c with st := s', aborted := update c.aborted i false }, DeltaQueue.insert i t l, by simp [isrStep, e],
    ⟨hb, ?_, ?_, hf.handled.trans hv.handled, hv.nodup, fun k hk => ?_⟩⟩
  · refine hv.linked.frame (fun x hx => hf.links x ?_) (fun j r hpc => ?_) (fun k hk htd => ?_)
    · have := hv.footprint_apart hx
      simp only [mem_cons, not_or] at this ⊢
      exact ⟨hfoot x hx, this⟩
    · -- the saved `next` stays at the head
      obtain ⟨d, l₁, rfl⟩ := hv.next_head hpc
      have hd : ¬ (t : ℤ) ≤ d := by
        have := hnext j r hpc
        rw [hv.book.rep.delta (j, d) (by simp)] at this
        exact not_le.2 this
      exact ⟨d, DeltaQueue.insert i (t - d) l₁, by simp [DeltaQueue.insert, hd]⟩
    · rw [mem_ids_insert, not_or]
      exact ⟨hne k hk htd, (hv.at_hand hk).2 htd⟩
  · refine hv.promise.mono (fun _ _ h => h) fun k q _ => ⟨Iff.rfl, fun r hr => ?_⟩
    have hki : k ≠ i := by rintro rfl; rw [remaining_eq_none_iff.2 hil] at hr; simp at hr
    rw [remaining_insert hil]; simpa [hki] using hr
  · by_cases hki : k = i
    · simp [hki] at hk
    · simp only [update_of_ne hki] at hk
      have hin := hv.aborted k hk
      rw [hf.delta k (by simp [hki, (hv.book.inactive hin).1])]; exact hin

theorem abort (hs : Safe h c (.abort i)) :
    ∃ c' l' todo', isrStep h c (.abort i) = some c' ∧ IsrInv n log c' l' todo' new := by
  obtain ⟨hnext, hwalk, htail⟩ := hs
  have horig : ∀ k q, update c.orig i none k = some q → k ≠ i ∧ c.orig k = some q := by
    intro k q hk
    by_cases hki : k = i
    · simp [hki] at hk
    · exact ⟨hki, by simpa [hki] using hk⟩
  have hab : ∀ s' : TState N, s'.delta i = INACTIVE → (∀ k, c.st.delta k = INACTIVE → s'.delta k = INACTIVE) →
      ∀ k, update c.aborted i true k = true → s'.delta k = INACTIVE := by
    intro s' hi hk k hak
    by_cases hki : k = i
    · rw [hki]; exact hi
    · rw [update_of_ne hki] at hak
      exact hk k (hv.aborted k hak)
  by_cases hin : c.st.delta i = INACTIVE
  · refine ⟨{ c with aborted := update c.aborted i true }, l, todo, ?_, ⟨hv.book, hv.linked, hv.promise,
      hv.handled, hv.nodup, hab _ hin fun _ h => h⟩⟩
    simp [isrStep, abortTimeout_inactive hin, INACTIVE]
  by_cases hil : i ∈ ids l
  · obtain ⟨s', e, hb, hdi, hf⟩ := hv.book.abortQueued hil
    refine ⟨{ c with st := s', orig := update c.orig i none, aborted := update c.aborted i true },
      erase i l, todo, by simp [isrStep, e], ⟨hb, ?_, ?_, hf.handled.trans hv.handled, hv.nodup,
        hab _ hdi fun k hk => ?_⟩⟩
    · refine hv.linked.frame (fun x hx => hf.links x (hv.footprint_apart hx)) (fun j r hpc => ?_) (fun k hk htd => ?_)
      · obtain ⟨d, l₁, rfl⟩ := hv.next_head hpc
        have hji : j ≠ i := by rintro rfl; exact hnext r hpc
        exact ⟨d, erase i l₁, by simp [erase, hji]⟩
      · rw [ids_erase]
        exact fun hm => (hv.at_hand hk).2 htd (mem_of_mem_erase hm)
    · refine hv.promise.mono (fun k q hk => (horig k q hk).2) fun k q hk => ⟨Iff.rfl, fun r hr => ?_⟩
      rw [remaining_erase hv.book.rep.nodup]; simpa [(horig k q hk).1] using hr
    · rw [hf.delta k (hv.book.inactive hk).1]; exact hk
  · have hit : i ∈ todo := by
      by_contra hit; exact hin (hv.book.idle i hil hit)
    have hnt : ¬ ExpiredTail c.st i := fun ht => htail ⟨hv.book.marked i hit, ht⟩
    obtain ⟨p₁, k, p₂, rfl, hn, hp, hlk⟩ := hv.linked.abortTodo hit hwalk hnt
    have hnd := (nodup_append.1 hv.nodup).2.1
    have hik : i ≠ k := by rintro rfl; simp [nodup_append] at hnd
    obtain ⟨e, hb⟩ := hv.book.abortTodo hik hn (hv.footprint_apart hp) hnd
    refine ⟨{ c with st := Book.abortExpired c.st i k, orig := update c.orig i none,
                     aborted := update c.aborted i true },
      l, p₁ ++ k :: p₂, by simp [isrStep, e], ⟨hb, hlk, ?_, hv.handled, ?_, ?_⟩⟩
    · refine hv.promise.mono (fun x q hx => (horig x q hx).2) fun x q hx => ⟨?_, fun r hr => hr⟩
      have := (horig x q hx).1
      simp only [mem_append, mem_cons]; tauto
    · exact hv.nodup.sublist (((sublist_cons_self _ _).append_left _).append_left _)
    · refine hab _ (by simp [Book.abortExpired]) fun x hx => ?_
      have hxt := (hv.book.inactive hx).2
      simp only [mem_append, mem_cons, not_or] at hxt
      rw [Book.abortExpired_delta_ne hxt.2.1 hxt.2.2.1]; exact hx

/-! ## Steps of the announcement -/

omit hv in
theorem aborted_of_clear (hi : clearAborted h c i = true) : c.aborted i = true := by
  cases hpc : c.pc with
  | handler k =>
    simp only [clearAborted, hpc] at hi
    split at hi
    · by_cases hik : i = k
      · simp [hik] at hi
      · rwa [update_of_ne hik] at hi
    · exact hi
  | start _ | dequeue _ _ | walkHead | walk _ | walkNext _ | done => rwa [clearAborted, hpc] at hi

/-- A step to `pc'`, with nobody else aborted. -/
theorem ticked (pc' : Pc N) (new' : List (Fin N)) {s' : TState N} {l' : List (Fin N × ℤ)}
    {todo' : List (Fin N)} (hstep : tickStep h (c.pc, c.st) = some (pc', s'))
    (hlt : stepsLeft l' todo' pc' < stepsLeft l todo c.pc) (hb : Book s' l' todo')
    (hl : Linked s' l' todo' pc') (hpr : Promise n l' todo' new' c.orig pc') (hh : s'.handled = log ++ new')
    (hnd : (new' ++ todo').Nodup) (hd : ∀ i, clearAborted h c i = true → c.st.delta i = INACTIVE →
      s'.delta i = INACTIVE) :
    Ticks h n log c l todo :=
  ⟨{ c with pc := pc', st := s', aborted := clearAborted h c }, l', todo', new', by simp [isrStep, hstep],
    ⟨hb, hl, hpr, hh, hnd, fun i hi => hd i hi (hv.aborted i (aborted_of_clear hi))⟩, hlt⟩

theorem tick_dequeue {next : Cell N} {r : ℤ} (hpc : c.pc = .dequeue next r) : Ticks h n log c l todo := by
  have hl := hv.linked
  have hpr := hv.promise
  rw [hpc] at hl hpr
  obtain ⟨⟨j, d, l₁, rfl, rfl⟩, hr, hring⟩ := hl
  obtain ⟨rfl, hpr⟩ := hpr
  have hb := hv.book
  have he : ERep c.st ((j, d) :: l₁) todo := ⟨hring, hb.apart, hb.marked⟩
  have hjt : j ∉ todo := fun hm => hb.apart j hm (by simp)
  have hndt : todo.Nodup := by simpa using hv.nodup
  have hnin : ∀ i, c.st.delta i = INACTIVE → i ≠ j := by
    rintro i hi rfl
    exact (hb.inactive hi).1 (by simp)
  by_cases hdr : d ≤ r
  · obtain ⟨s', hs, hq', he', hh, hdj, hdl⟩ := dequeue_due hb.rep he hdr
    have hrem : ∀ k, k ≠ j → remaining ((j, d) :: l₁) k = (remaining l₁ k).map (d + ·) := by
      intro k hk; simp [remaining, Ne.symm hk]
    have hb' : Book s' l₁ (j :: todo) := by
      refine ⟨hq', he'.apart, he'.marked, fun i hil hit => ?_⟩
      simp only [mem_cons, not_or] at hit
      rw [hdl i hit.1]; exact hb.idle i (by simp [hit.1, hil]) hit.2
    refine hv.ticked (nextPc l₁ (r - d)) [] (by rw [hpc, tickStep, hs]) ?_ hb' ?_ ?_ (hh.trans hv.handled)
      (by simp [hjt, hndt]) fun i _ hi =>
      (hdl i (hnin i hi)).trans hi
    · cases l₁ <;> simp only [hpc, stepsLeft, nextPc, length_cons, length_nil] <;> omega
    · cases l₁ with
      | nil => exact he'.ring
      | cons p l₂ => exact ⟨⟨p.1, p.2, l₂, rfl, rfl⟩, by omega, he'.ring⟩
    · -- an entry is settled when it leaves the queue, and keeps its ticks net of the residue otherwise
      have hstep : ∀ i q, c.orig i = some q → (i ∈ j :: todo ∧ q ≤ n) ∨ remaining l₁ i = some (q + (r - d) - n) := by
        intro i q hi
        rcases hpr i q hi with ⟨ht, hq⟩ | hrm
        · exact .inl ⟨by simp [ht], hq⟩
        · by_cases hij : i = j
          · subst hij
            simp only [remaining, if_true, Option.some.injEq] at hrm
            exact .inl ⟨by simp, by omega⟩
          · rw [hrem i hij, Option.map_eq_some_iff] at hrm
            obtain ⟨x, hx, hxe⟩ := hrm
            exact .inr (by rw [hx]; simp only [Option.some.injEq]; omega)
      cases l₁ with
      | nil =>
        intro i q hi
        rcases hstep i q hi with ⟨ht, hq⟩ | hrm
        · simp [ht, hq]
        · simp [remaining] at hrm
      | cons p l₂ => exact ⟨rfl, hstep⟩
  · obtain ⟨hs, hq', he'⟩ := dequeue_not_due hb.rep he (not_le.1 hdr)
    have hdl : ∀ i, i ≠ j → (c.st.setDelta j (d - r)).delta i = c.st.delta i := fun i hi => TState.setDelta_ne _ _ hi
    refine hv.ticked .walkHead [] (by rw [hpc, tickStep, hs])
      (by simp only [hpc, stepsLeft, length_cons]; omega) ⟨hq', he'.apart, he'.marked, fun i hil hit =>
      ?_⟩ he'.ring (fun i q hi => ?_) hv.handled hv.nodup
      fun i _ hi => (hdl i (hnin i hi)).trans hi
    · simp only [ids_cons, mem_cons, not_or] at hil
      rw [hdl i hil.1]; exact hb.idle i (by simp [hil.1, hil.2]) hit
    · rcases hpr i q hi with ⟨ht, hq⟩ | hrm
      · simp [ht, hq]
      · have hge := head_le_remaining hb.rep.nonneg hrm
        have hit : i ∉ todo := fun hm => hb.apart i hm (mem_ids_iff.2 ⟨_, hrm⟩)
        simp [hit]; omega

theorem tick_walkHead (hpc : c.pc = .walkHead) : Ticks h n log c l todo := by
  have hl := hv.linked
  have hpr := hv.promise
  rw [hpc] at hl hpr
  have hstep := walkHead_step (h := h) (ERep.mk hl hv.book.apart hv.book.marked)
  cases todo with
  | nil =>
    exact hv.ticked .done new (by rw [hpc, hstep]; rfl)
      (by simp [hpc, stepsLeft]) hv.book rfl hpr hv.handled hv.nodup fun _ _ hi => hi
  | cons i post =>
    exact hv.ticked (.walk i) new (by rw [hpc, hstep]; rfl) (by simp [hpc, stepsLeft]) hv.book
      ⟨post, rfl, Rest.of_ring hl, hl.chain.2⟩ hpr hv.handled hv.nodup fun _ _ hi => hi

/-- The call of `_handle_one_expired_timeout` is recorded. -/
theorem tick_walk (hpc : c.pc = .walk i) : Ticks h n log c l todo := by
  have hl := hv.linked
  have hpr := hv.promise
  rw [hpc] at hl hpr
  obtain ⟨post, rfl, hrest, -⟩ := hl
  have hb := hv.book
  have hil : i ∉ ids l := hb.apart i (by simp)
  have hip : i ∉ post := (nodup_cons.1 hrest.nodup).1
  refine hv.ticked (.handler i) (new ++ [i]) (by rw [hpc, tickStep])
    (by simp only [hpc, stepsLeft, length_cons]; omega) ⟨hb.rep.expire hil,
    fun k hk => hb.apart k (by simp [hk]), fun k hk => ?_,
    fun k hkl hkt => ?_⟩ ⟨hrest.frame rfl fun _ _ _ => ⟨rfl, rfl⟩, fun _ => hil⟩ (fun k q hk => ?_) ?_ ?_
    fun k _ hk => ?_
  · rw [expire_delta_ne _ (by rintro rfl; exact hip hk)]; exact hb.marked k (by simp [hk])
  · by_cases hki : k = i
    · subst hki; simp
    · rw [expire_delta_ne _ hki]; exact hb.idle k hkl (by simp [hki, hkt])
  · rw [← hpr k q hk]; simp only [mem_append, mem_cons, not_mem_nil, or_false, or_assoc]
  · simp [hv.handled]
  · simpa using hv.nodup
  · by_cases hki : k = i
    · subst hki; simp
    · rwa [expire_delta_ne _ hki]

theorem tick_handler (hpc : c.pc = .handler i) (hs : Safe h c .tick) : Ticks h n log c l todo := by
  have hl := hv.linked
  have hpr := hv.promise
  rw [hpc] at hl hpr
  cases hre : (h i).rearms with
  | false =>
    exact hv.ticked (.walkNext i) new (by simp [hpc, tickStep, runFunc_of_not hre])
      (by simp [hpc, stepsLeft]) hv.book hl hpr hv.handled hv.nodup fun _ _ hi => hi
  | true =>
    -- only the tail comes back into the queue, when it is not there already
    obtain ⟨htail, hin⟩ := hs i hpc hre
    obtain rfl : todo = [] := hl.1.tail_iff.1 htail
    obtain ⟨p, hp, hp0⟩ := Handler.rearms_iff.1 hre
    obtain ⟨s', e, hb, hf⟩ := hv.book.add hin (h := h) (t := p) (by omega)
    have hrun : runFunc h c.st i = some s' := by
      have hpne : ¬ p = 0 := by omega
      simpa [addTimeout, runFunc, hp, hp0, hpne] using e
    refine hv.ticked (.walkNext i) new (by simp [hpc, tickStep, hrun]) (by simp [hpc, stepsLeft]) hb
      ⟨hl.1.frame (hf.links .expired (by simp [cells])).2 (by simp), by simp⟩
      hpr (hf.handled.trans hv.handled) hv.nodup fun k hk hkin => ?_
    have hki : k ≠ i := by
      rintro rfl
      simp [clearAborted, hpc, hre] at hk
    rwa [hf.delta k (by simp [hki, (hv.book.inactive hkin).1])]

theorem tick_walkNext (hpc : c.pc = .walkNext i) : Ticks h n log c l todo := by
  have hl := hv.linked
  have hpr := hv.promise
  rw [hpc] at hl hpr
  have hpk := hl.1.peekNext
  cases todo with
  | nil =>
    exact hv.ticked .done new (by rw [hpc, tickStep, hpk]; rfl)
      (by simp [hpc, stepsLeft]) hv.book rfl hpr hv.handled hv.nodup fun _ _ hi => hi
  | cons j post =>
    exact hv.ticked (.walk j) new (by rw [hpc, tickStep, hpk]; rfl) (by simp [hpc, stepsLeft]) hv.book
      ⟨post, rfl, hl.1.next, (hl.1.chain (by simp)).2⟩ hpr hv.handled hv.nodup fun _ _ hi => hi

theorem tick (hs : Safe h c .tick) (hd : c.pc ≠ .done) : Ticks h n log c l todo := by
  cases hpc : c.pc with
  | start r => have := hv.linked; rw [hpc] at this; exact this.elim
  | dequeue next r => exact hv.tick_dequeue hpc
  | walkHead => exact hv.tick_walkHead hpc
  | walk i => exact hv.tick_walk hpc
  | handler i => exact hv.tick_handler hpc hs
  | walkNext i => exact hv.tick_walkNext hpc
  | done => exact absurd hpc hd

/-- Every safe event is possible (short of a step past the end) and keeps the invariant. -/
theorem step {ev : Ev N} (hs : Safe h c ev) (hd : ev = .tick → c.pc ≠ .done) :
    ∃ c' l' todo' new', isrStep h c ev = some c' ∧ IsrInv n log c' l' todo' new' := by
  cases ev with
  | add i t =>
    obtain ⟨c', l', e, hv'⟩ := hv.add hs
    exact ⟨c', l', todo, new, e, hv'⟩
  | abort i =>
    obtain ⟨c', l', todo', e, hv'⟩ := hv.abort hs
    exact ⟨c', l', todo', new, e, hv'⟩
  | tick =>
    obtain ⟨c', l', todo', new', e, hv', -⟩ := hv.tick hs (hd rfl)
    exact ⟨c', l', todo', new', e, hv'⟩

/-- Left alone, with handlers that do not re-arm, the announcement comes to its end. -/
theorem finishes (hno : ∀ i, (h i).rearms = false) : ∃ k s', runSteps h k (c.pc, c.st) = some (.done, s') := by
  induction hm : stepsLeft l todo c.pc using Nat.strongRecOn generalizing c l todo new with
  | ind m ih =>
    by_cases hpc : c.pc = .done
    · exact ⟨0, c.st, by rw [hpc]; rfl⟩
    obtain ⟨c', l', todo', new', e, hv', hlt⟩ := hv.tick (h := h) (fun i _ hre => by simp [hno i] at hre) hpc
    obtain ⟨p, hp, rfl⟩ := Option.map_eq_some_iff.1 e
    obtain ⟨k, s', hk⟩ := ih _ (hm ▸ hlt) hv' rfl
    exact ⟨1 + k, s', runSteps_trans (runSteps_one hp) hk⟩

end

end IsrInv

/-! ## Every interleaving -/

/-- The first section. -/
theorem IsrInv.start (hq : Quiescent s l) (hn : 0 ≤ n) (orig : Fin N → Option ℤ)
    (horig : ∀ i q, orig i = some q → remaining l i = some q)
    (aborted : Fin N → Bool) (haborted : ∀ i, aborted i = true → s.delta i = INACTIVE) :
    ∃ pc st l' todo new, tickStep h (.start n, s) = some (pc, st) ∧
    IsrInv n s.handled ⟨pc, st, orig, aborted⟩ l' todo new := by
  have hq' := hq.rep.initExpired
  have hp := sysDlistPeekHead_eq hq'.ring
  cases l with
  | nil =>
    refine ⟨.done, _, [], [], [], by simp only [tickStep]; rw [hp]; rfl,
      ⟨⟨hq', by simp, by simp, fun i hi _ => hq.idle i hi⟩, rfl,
      fun i q hi => ?_, by simp, by simp, haborted⟩⟩
    cases horig i q hi
  | cons p l =>
    obtain ⟨j, d⟩ := p
    -- the first round is a round like any other, of a loop that has just set up `expired`
    have hv : IsrInv n s.handled ⟨.dequeue (.node j) n, { s with links := sysDlistInit s.links .expired },
      orig, aborted⟩ ((j, d) :: l) [] [] := by
      refine ⟨⟨hq', by simp, by simp, fun i hi _ => hq.idle i hi⟩, ⟨⟨j, d, l, rfl, rfl⟩, hn, isRing_init _ _⟩,
        ⟨rfl, fun i q hi => .inr ?_⟩, by simp, by simp, haborted⟩
      rw [horig i q hi, add_sub_cancel_right]
    obtain ⟨c', l', todo', new', e, hv', -⟩ := hv.tick_dequeue (h := h) rfl
    rw [isrStep] at e
    obtain ⟨⟨pc, st⟩, hst, rfl⟩ := Option.map_eq_some_iff.1 e
    refine ⟨pc, st, l', todo', new', ?_, hv'⟩
    rw [← hst]
    simp only [tickStep]
    rw [hp]
    rfl

theorem Interleaved.inv (hq : Quiescent s l)
    (hn : 0 ≤ n) {c : IsrState N} (hi : Interleaved (Safe h) h n s (remaining l) c) :
    ∃ l' todo new, IsrInv n s.handled c l' todo new := by
  induction hi with
  | start hst =>
    obtain ⟨pc, st, l', todo, new, hst', hv⟩ :=
      IsrInv.start (h := h) hq hn (remaining l) (fun _ _ hi => hi) (fun _ => false) (by simp)
    rw [hst] at hst'
    cases hst'
    exact ⟨l', todo, new, hv⟩
  | @step c ev c' _ hs he ih =>
    obtain ⟨l', todo, new, hv⟩ := ih
    have hd : ev = .tick → c.pc ≠ .done := by
      rintro rfl hpc
      simp [isrStep, hpc, tickStep] at he
    obtain ⟨c'', l'', todo', new', e, hv'⟩ := hv.step hs hd
    rw [he] at e
    cases e
    exact ⟨l'', todo', new', hv'⟩

/-- What an announcement of `n` ticks owes to the timeouts queued when it began. -/
structure Punctual (A : IsrState N → Ev N → Prop) (h : Fin N → Handler) (n : ℤ) (log : List (Fin N))
    (c : IsrState N) : Prop where
  /-- it goes on, whatever the next event -/
  goesOn : ∀ ev, A c ev → (ev = .tick → c.pc ≠ .done) → ∃ c', isrStep h c ev = some c'
  /-- it ends when it is left alone -/
  ends : (∀ i, (h i).rearms = false) → ∃ k s', runSteps h k (c.pc, c.st) = some (.done, s')
  /-- the next to be handled has not been aborted -/
  notAborted : ∀ i, c.pc = .walk i → c.aborted i = false
  /-- who has been handled was due; at the end, who was due has been handled -/
  expires : ∃ new, c.st.handled = log ++ new ∧ new.Nodup ∧ (∀ i q, c.orig i = some q → i ∈ new → q ≤ n) ∧
    (c.pc = .done → ∀ i q, c.orig i = some q → (i ∈ new ↔ q ≤ n))

/-- **`handle_timeouts` (sys_clock.c:191-253)** under nested interrupts whose calls are safe. -/
theorem interleaved_punctual {h : Fin N → Handler} {s : TState N} {l : List (Fin N × ℤ)} (hq : Quiescent s l) {n : ℤ}
    (hn : 1 ≤ n) {c : IsrState N} (hi : Interleaved (Safe h) h n s (remaining l) c) :
    Punctual (Safe h) h n s.handled c := by
  obtain ⟨l', todo, new, hv⟩ := hi.inv hq (by omega)
  refine ⟨fun ev hs hd => ?_, hv.finishes, fun i hpc => ?_, new, hv.handled, (nodup_append.1 hv.nodup).1, ?_, ?_⟩
  · obtain ⟨c', _, _, _, e, _⟩ := hv.step hs hd
    exact ⟨c', e⟩
  · have hl := hv.linked
    rw [hpc] at hl
    obtain ⟨post, rfl, -⟩ := hl
    by_contra hab
    have hin := hv.aborted i (by simpa using hab)
    exact (hv.book.inactive hin).2 (by simp)
  · intro i q hq hin
    have hpr := hv.promise
    cases hpc : c.pc with
    | dequeue next r => rw [hpc] at hpr; rw [hpr.1] at hin; simp at hin
    | start _ | walkHead | walk _ | handler _ | walkNext _ | done =>
      rw [hpc] at hpr; exact (hpr i q hq).1 (.inl hin)
  · intro hpc i q hq
    have hpr := hv.promise
    have hl := hv.linked
    rw [hpc] at hpr hl
    obtain rfl : todo = [] := hl
    simpa using hpr i q hq

/-! ## What an abort leaves alone -/

/-- `_abort_timeout(t)`, where `_timeout_q` is `l`, `todo` are the expired timeouts still to be handled and `kept`
the cells that link them. -/
structure AbortsOnly (s : TState N) (l : List (Fin N × ℤ)) (todo : List (Fin N)) (kept : List (Cell N))
    (t : Fin N) : Prop where
  inactive : s.delta t = INACTIVE → abortTimeout s t = some (INACTIVE, s)
  active : s.delta t ≠ INACTIVE → ∃ s', abortTimeout s t = some (0, s') ∧
    -- `t` is gone, the other deadlines are what they were, and so is the rest of the expired
    Book s' (erase t l) todo ∧ (∀ k, remaining (erase t l) k = if k = t then none else remaining l k) ∧
    (∀ k ∈ todo, s'.delta k = s.delta k) ∧
    (∀ c ∈ kept, s'.links.next c = s.links.next c ∧ s'.links.prev c = s.links.prev c) ∧ s'.handled = s.handled ∧
    -- and this is all that is written
    (∀ k, k ≠ t → s.links.next (.node t) ≠ .node k → s'.delta k = s.delta k) ∧
    ∀ c, (c ≠ s.links.prev (.node t) → s'.links.next c = s.links.next c) ∧
    (c ≠ s.links.next (.node t) → s'.links.prev c = s.links.prev c)

/-- The words that `_abort_timeout` writes, whatever the lists. -/
theorem abortTimeout_writes {s' : TState N} {t : Fin N} {r : ℤ} (h : abortTimeout s t = some (r, s')) :
    (∀ k, k ≠ t → s.links.next (.node t) ≠ .node k → s'.delta k = s.delta k) ∧
      ∀ c, (c ≠ s.links.prev (.node t) → s'.links.next c = s.links.next c) ∧
        (c ≠ s.links.next (.node t) → s'.links.prev c = s.links.prev c) := by
  have hlinks : ∀ c, (c ≠ s.links.prev (.node t) → (s.links.unlink (.node t)).next c = s.links.next c) ∧
      (c ≠ s.links.next (.node t) → (s.links.unlink (.node t)).prev c = s.links.prev c) := by
    intro c
    rw [Links.unlink]
    exact ⟨fun hc => Links.setNext_next_ne _ _ hc, fun hc => Links.setPrev_prev_ne _ _ hc⟩
  unfold abortTimeout at h
  split at h
  · cases h
    exact ⟨fun _ _ _ => rfl, fun _ => ⟨fun _ => rfl, fun _ => rfl⟩⟩
  · obtain ⟨s₁, hgiven, he⟩ := Option.map_eq_some_iff.1 h
    obtain ⟨-, rfl⟩ := Prod.mk.inj he
    have hsame : s₁.links = s.links ∧ ∀ k, s.links.next (.node t) ≠ .node k → s₁.delta k = s.delta k := by
      split at hgiven
      · cases hgiven
        exact ⟨rfl, fun _ _ => rfl⟩
      · split at hgiven
        · rename_i j hnext
          cases hgiven
          refine ⟨rfl, fun k hk => TState.setDelta_ne _ _ ?_⟩
          rintro rfl
          simp only [sysDlistPeekNext, sysDlistPeekNextNoCheck] at hnext
          split at hnext
          · cases hnext
          · exact hk (Option.some.inj hnext)
        · cases hgiven
    refine ⟨fun k hkt hk => (TState.setDelta_ne _ _ hkt).trans (hsame.2 k hk), ?_⟩
    simp only [hsame.1, sysDlistRemove_eq]
    exact hlinks

theorem Book.abortsOnly (hb : Book s l todo) {kept : List (Cell N)}
    (hkept : ∀ c ∈ kept, c ∉ Cell.timeoutQ :: cells l) {t : Fin N} (ht : INACTIVE ≤ s.delta t) :
    AbortsOnly s l todo kept t := by
  refine ⟨abortTimeout_inactive, fun hact => ?_⟩
  have htl : t ∈ ids l := by
    by_contra htl
    refine hact (hb.idle t htl fun htt => ?_)
    exact absurd (hb.marked t htt) (not_lt.2 ht)
  obtain ⟨s', he, hb', -, hf⟩ := hb.abortQueued htl
  exact ⟨s', he, hb', remaining_erase hb.rep.nodup t, fun k hk => hf.delta k (hb.apart k hk),
    fun c hc => hf.links c (hkept c hc), hf.handled, abortTimeout_writes he⟩

/-- On the local list of the expired, the next one's difference is written, or what lies behind the head of the list. -/
theorem Book.abort_expired (hb : Book s l todo) {t : Fin N} (ht : t ∈ todo)
    (hnext : s.links.next (.node t) = .expired ∨ ∃ k ∈ todo, k ≠ t ∧ s.links.next (.node t) = .node k) :
    abortTimeout s t = none ∨ ∃ k ∈ todo, k ≠ t ∧ ∃ s', abortTimeout s t = some (0, s') ∧ s'.delta k ≠ s.delta k := by
  rw [hb.abortTimeout_eq ht]
  refine hnext.imp (fun he => by rw [he]) fun ⟨k, hk, hkt, he⟩ => ⟨k, hk, hkt, Book.abortExpired s t k, by rw [he], ?_⟩
  have hmt := hb.marked t ht
  have hsum : (Book.abortExpired s t k).delta k = s.delta k + s.delta t :=
    (TState.setDelta_ne _ _ hkt).trans (TState.setDelta_self _ _ _)
  rw [INACTIVE] at hmt
  omega

/-- **`_abort_timeout` (timeout_q.h:119)** between two calls and between any two sections of an announcement. If
the timeout is not on the local list of the expired, nothing but the timeout changes its meaning, and only the
timeout, the links of its neighbours and the difference of its successor are written. If it is, the difference of
another expired one is written, or the word behind the head of their list. -/
theorem abort_disturbs_nothing {h : Fin N → Handler} {s : TState N} {l : List (Fin N × ℤ)}
    (hq : Quiescent s l) {n : ℤ} (hn : 1 ≤ n) {c : IsrState N} (hi : Interleaved (Safe h) h n s (remaining l) c) :
    (∀ t, AbortsOnly s l [] [] t) ∧ ∃ l' todo, Book c.st l' todo ∧ Linked c.st l' todo c.pc ∧
        (∀ t, INACTIVE ≤ c.st.delta t → AbortsOnly c.st l' todo (footprint todo c.pc) t) ∧
        ∀ t, c.st.delta t < INACTIVE → abortTimeout c.st t = none ∨
          ∃ k ∈ todo, k ≠ t ∧ ∃ s', abortTimeout c.st t = some (0, s') ∧ s'.delta k ≠ c.st.delta k := by
  constructor
  · have hb : Book s l [] := ⟨hq.rep, by simp, by simp, fun i hi _ => hq.idle i hi⟩
    intro t
    apply hb.abortsOnly (by simp)
    by_cases ht : t ∈ ids l
    · have := hb.queued_active ht
      rw [INACTIVE]
      omega
    · exact (hq.idle t ht).ge
  · obtain ⟨l', todo, new, hv⟩ := hi.inv hq (by omega)
    refine ⟨l', todo, hv.book, hv.linked, fun t ht =>
      hv.book.abortsOnly (fun c hc => hv.footprint_apart hc) ht, fun t ht => ?_⟩
    have htodo : t ∈ todo := by
      by_contra hno
      have hidle := hv.book.idle t (fun hq => by have := hv.book.queued_active hq; rw [INACTIVE] at ht; omega) hno
      omega
    exact hv.book.abort_expired htodo (hv.linked.next htodo (nodup_append.1 hv.nodup).2.1)

/-! ## What goes wrong otherwise -/

instance (c : IsrState N) : ∀ ev, Decidable (IsrLegal c ev)
  | .add i ticks => inferInstanceAs (Decidable (1 ≤ ticks ∧ c.st.delta i = INACTIVE))
  | .tick | .abort _ => inferInstanceAs (Decidable True)

/-- A given sequence of legal events. -/
def legalRun (h : Fin N → Handler) (c : IsrState N) : List (Ev N) → Option (IsrState N)
  | [] => some c
  | ev :: evs => if IsrLegal c ev then (isrStep h c ev).bind fun c' => legalRun h c' evs else none

theorem legalRun_interleaved {orig : Fin N → Option ℤ} {evs : List (Ev N)}
    {c c' : IsrState N} (hc : Interleaved IsrLegal h n s orig c) (hr : legalRun h c evs = some c') :
    Interleaved IsrLegal h n s orig c' := by
  induction evs generalizing c with
  | nil => simp only [legalRun, Option.some.injEq] at hr; exact hr ▸ hc
  | cons ev evs ih =>
    simp only [legalRun] at hr
    split at hr
    · rename_i hl
      obtain ⟨c₁, hs, hr⟩ := Option.bind_eq_some_iff.1 hr
      exact ih (hc.step hl hs) hr
    · simp at hr

/-- Timeouts 0, 1 and 2 with one, two and three ticks left. -/
def threeQueued : TState 4 where
  links :=
    let m := sysDlistInit ⟨id, id⟩ .timeoutQ
    let m := sysDlistAppend m .timeoutQ (.node 0)
    sysDlistAppend (sysDlistAppend m .timeoutQ (.node 1)) .timeoutQ (.node 2)
  delta := ![1, 1, 1, INACTIVE]
  handled := []

theorem threeQueued_quiescent : Quiescent threeQueued [(0, 1), (1, 1), (2, 1)] :=
  ⟨⟨by decide, by decide, by simp [Nonneg]⟩, by decide⟩

/-- The same after the first section of an announcement of two ticks. -/
def threeBegun : IsrState 4 :=
  let p := dequeueSection { threeQueued with links := sysDlistInit threeQueued.links .expired } 0 2
  ⟨p.1, p.2, remaining [(0, 1), (1, 1), (2, 1)], fun _ => false⟩

theorem threeBegun_interleaved (A : IsrState 4 → Ev 4 → Prop) :
    Interleaved A (fun _ => .thread) 2 threeQueued (remaining [(0, 1), (1, 1), (2, 1)]) threeBegun :=
  .start rfl

/-- An ISR adds timeout 3 for five ticks. -/
theorem interleaved_punctual_threeBegun :
    ∃ c, Interleaved (Safe fun _ => .thread) (fun _ => .thread) 2 threeQueued (remaining [(0, 1), (1, 1), (2, 1)]) c ∧
      c.pc = .dequeue (.node 1) 1 ∧ c.st.delta 3 = 3 ∧ Punctual (Safe fun _ => .thread) (fun _ => .thread) 2 [] c := by
  have hs : Safe (fun _ => .thread) threeBegun (.add 3 5) := by
    refine ⟨⟨by decide, by decide⟩, fun j r hpc => ?_, ?_⟩
    · obtain ⟨rfl, rfl⟩ : 1 = j ∧ 1 = r := by simpa [threeBegun] using (show Pc.dequeue (.node 1) 1 = _ from hpc)
      decide
    · have : threeBegun.pc = .dequeue (.node 1) 1 := by decide
      simp [this]
  have h1 := (threeBegun_interleaved _).step hs rfl
  exact ⟨_, h1, by decide, by decide, interleaved_punctual threeQueued_quiescent (by decide) h1⟩

/-- Two legal interleavings of an announcement of two ticks. In the first, timeout 1 is aborted while
`handle_timeouts` keeps it as `next`, and is handled nevertheless. In the second, timeout 3 is added
for one tick and lands in front of `next`: timeout 2, with three ticks left and never aborted, expires
with the others. -/
theorem interleaved_not_punctual :
    (∃ c, Interleaved IsrLegal (fun _ => .thread) 2 threeQueued (remaining [(0, 1), (1, 1), (2, 1)]) c ∧
      c.pc = .walk 1 ∧ c.aborted 1 = true) ∧
    (∃ c, Interleaved IsrLegal (fun _ => .thread) 2 threeQueued (remaining [(0, 1), (1, 1), (2, 1)]) c ∧
      c.pc = .done ∧ c.orig 2 = some 3 ∧ c.st.handled = [2, 1, 0]) := by
  constructor
  · have key : (legalRun (fun _ => .thread) threeBegun (.abort 1 :: List.replicate 6 .tick)).map
        (fun c => (c.pc, c.aborted 1)) = some (.walk 1, true) := by decide
    obtain ⟨c, hc, he⟩ := Option.map_eq_some_iff.1 key
    simp only [Prod.mk.injEq] at he
    exact ⟨c, legalRun_interleaved (threeBegun_interleaved _) hc, he⟩
  · have key : (legalRun (fun _ => .thread) threeBegun (.add 3 1 :: List.replicate 12 .tick)).map
        (fun c => (c.pc, c.orig 2, c.st.handled)) = some (.done, some 3, [2, 1, 0]) := by decide
    obtain ⟨c, hc, he⟩ := Option.map_eq_some_iff.1 key
    simp only [Prod.mk.injEq] at he
    exact ⟨c, legalRun_interleaved (threeBegun_interleaved _) hc, he⟩

theorem abort_disturbs_nothing_threeBegun : ∃ l todo, Book threeBegun.st l todo ∧
    AbortsOnly threeBegun.st l todo (footprint todo threeBegun.pc) 1 :=
  have ⟨_, l, todo, hb, _, hall, _⟩ := abort_disturbs_nothing (h := fun _ => .thread) threeQueued_quiescent (by decide)
    (threeBegun_interleaved _)
  ⟨l, todo, hb, hall 1 (by decide)⟩

/-- Timeouts 1 and 0 have expired, in this order. When 1 is aborted, the difference of 0 is written, which is not in
`_timeout_q`; when 0 is aborted, what lies behind the head of the local list is written. -/
theorem expired_abort_writes :
    ∃ c, Interleaved (Safe fun _ => .thread) (fun _ => .thread) 2 threeQueued (remaining [(0, 1), (1, 1), (2, 1)]) c ∧
    c.pc = .dequeue (.node 2) 0 ∧ c.st.delta 0 = EXPIRED ∧ c.st.delta 1 = EXPIRED ∧
    (abortTimeout c.st 1).map (fun r => r.2.delta 0) = some (EXPIRED + EXPIRED) ∧ abortTimeout c.st 0 = none := by
  have hs : Safe (fun _ => .thread) threeBegun .tick := by
    intro i _ hre
    simp [Handler.rearms] at hre
  exact ⟨_, (threeBegun_interleaved _).step hs rfl, by decide, by decide, by decide, by decide, by rfl⟩

end Zephyr
