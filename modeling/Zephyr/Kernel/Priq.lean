import Zephyr.Misc.Dlist
import Zephyr.Misc.RbRuns
import Zephyr.Lib.StableQueue
import Mathlib.Data.Fintype.Card
/-!
# Thread queues: `_priq_dumb_*`, `_priq_rb_*`, `_priq_mq_*` (kernel/sched.c:469-590)

There are `N` threads, `N` arbitrary. A queue is a list head with the `qnode_dlist` of its threads, a
red-black tree of their `qnode_rb`, or 32 list heads with a bit mask. A walk over a queue is given
`N + 1` rounds; a walk that needs more never ends, and the model answers `none`, as it does where the
source uses a list head as a `struct k_thread`. `base.prio` is an argument: the queues only read it.

`CONFIG_SCHED_DEADLINE` is off. Each queue keeps a list of its threads (`*Rep`), which the three
operations change by `StableQueue.enq`, `List.erase` and not at all.
-/
namespace Zephyr

open Ring RedBlack RedBlack.ColorTree StableQueue Function List

/-- The cells that thread lists are made of. -/
inductive QNode (ι : Type) (N : Nat) where
  | head (i : ι)
  | thread (t : Fin N)
deriving DecidableEq

variable {ι : Type} {N : Nat}

def isT1HigherPrioThanT2 (prio : Fin N → ℤ) (t1 t2 : Fin N) : Bool := prio t1 < prio t2

@[simp] theorem isT1HigherPrioThanT2_iff {prio : Fin N → ℤ} {t1 t2 : Fin N} :
    isT1HigherPrioThanT2 prio t1 t2 = true ↔ prio t1 < prio t2 := by
  simp [isT1HigherPrioThanT2]

section code

variable [DecidableEq ι] (prio : Fin N → ℤ)

/-! ## Sorted lists -/

/-- The walk of `_priq_dumb_add` (sched.c:475-481); `t` is the loop variable. -/
def priqDumbAddLoop (m : Links (QNode ι N)) (pq : QNode ι N) (thread : Fin N) :
    Nat → Option (QNode ι N) → Option (Links (QNode ι N))
  | 0, _ => none
  | _ + 1, none => some (sysDlistAppend m pq (.thread thread))
  | fuel + 1, some (.thread t) =>
    if isT1HigherPrioThanT2 prio thread t then some (sysDlistInsertBefore m pq (some (.thread t)) (.thread thread))
    else priqDumbAddLoop m pq thread fuel (sysDlistPeekNext m pq (some (.thread t)))
  | _ + 1, some (.head _) => none

def priqDumbAdd (m : Links (QNode ι N)) (pq : QNode ι N) (thread : Fin N) : Option (Links (QNode ι N)) :=
  priqDumbAddLoop prio m pq thread (N + 1) (sysDlistPeekHead m pq)

def priqDumbRemove (m : Links (QNode ι N)) (thread : Fin N) : Links (QNode ι N) := sysDlistRemove m (.thread thread)

/-- `CONTAINER_OF` of the head, which is no thread when the list is broken. -/
def priqDumbBest (m : Links (QNode ι N)) (pq : QNode ι N) : Option (Option (Fin N)) :=
  match sysDlistPeekHead m pq with
  | none => some none
  | some (.thread t) => some (some t)
  | some (.head _) => none

/-! ## Red-black trees -/

structure PriqRb (N : Nat) where
  tree : RbTree (Fin N)
  nextOrderKey : Nat

/-- `(struct _priq_rb){ .tree = { .lessthan_fn = _priq_rb_lessthan } }`: the other fields are zero. -/
def emptyRb (N : Nat) : PriqRb N := ⟨⟨none, 0⟩, 0⟩

structure RbMem (N : Nat) where
  nodes : Heap (Fin N)
  orderKey : Fin N → Nat

def priqRbLessthan (orderKey : Fin N → Nat) (ta tb : Fin N) : Bool :=
  if isT1HigherPrioThanT2 prio ta tb then true
  else if isT1HigherPrioThanT2 prio tb ta then false
  else orderKey ta < orderKey tb

/-- `next_order_key++` -/
def bump (k : Nat) : Nat := (k + 1) % 2 ^ 32

/-- The body of the renumbering loop (sched.c:531), over the threads in the order of their visit. -/
def renumber : List (Fin N) → (Fin N → Nat) × Nat → (Fin N → Nat) × Nat
  | [], s => s
  | t :: l, (orderKey, next) => renumber l (update orderKey t next, bump next)

section

variable (mem : RbMem N) (pq : PriqRb N) (thread : Fin N)

/-- The keys and the counter when `thread` has got its number (sched.c:521-533). -/
def giveOrderKey : Option ((Fin N → Nat) × Nat) :=
  let orderKey := update mem.orderKey thread pq.nextOrderKey
  let next := bump pq.nextOrderKey
  if next = 0 then (rbForEach mem.nodes pq.tree (N + 1)).map fun l => renumber l (orderKey, next)
  else some (orderKey, next)

def priqRbAdd : Option (RbMem N × PriqRb N) := do
  let (orderKey, next) ← giveOrderKey mem pq thread
  let (nodes, tree) ← rbInsert (priqRbLessthan prio orderKey) mem.nodes pq.tree thread
  some (⟨nodes, orderKey⟩, ⟨tree, next⟩)

def priqRbRemove : Option (RbMem N × PriqRb N) := do
  let (nodes, tree) ← rbRemove (priqRbLessthan prio mem.orderKey) mem.nodes pq.tree thread
  some ({ mem with nodes := nodes }, ⟨tree, if tree.root = none then 0 else pq.nextOrderKey⟩)

end

def priqRbBest (mem : RbMem N) (pq : PriqRb N) : Option (Option (Fin N)) :=
  rbGetMinmax mem.nodes pq.tree false (pq.tree.maxDepth + 1)

/-! ## Lists by priority -/

/-- `thread->base.prio - K_HIGHEST_THREAD_PRIO`; a shift by anything else is not defined. -/
def priorityBit (highest : ℤ) (thread : Fin N) : Option (Fin 32) :=
  let bit := prio thread - highest
  if h : 0 ≤ bit ∧ bit < 32 then some ⟨bit.toNat, by omega⟩ else none

structure PriqMq (ι : Type) (N : Nat) where
  links : Links (QNode ι N)
  bitmask : BitVec 32

variable (queue : Fin 32 → ι) (highest : ℤ)

def priqMqAdd (pq : PriqMq ι N) (thread : Fin N) : Option (PriqMq ι N) := do
  let bit ← priorityBit prio highest thread
  some ⟨sysDlistAppend pq.links (.head (queue bit)) (.thread thread), pq.bitmask ||| (1#32 <<< bit.val)⟩

def priqMqRemove (pq : PriqMq ι N) (thread : Fin N) : Option (PriqMq ι N) := do
  let bit ← priorityBit prio highest thread
  let links := sysDlistRemove pq.links (.thread thread)
  some ⟨links, if sysDlistIsEmpty links (.head (queue bit)) then pq.bitmask &&& ~~~(1#32 <<< bit.val) else pq.bitmask⟩

/-- `__builtin_ctz` -/
def builtinCtz (w : BitVec 32) : Option (Fin 32) := (List.finRange 32).find? fun i => w.getLsbD i.val

def priqMqBest (pq : PriqMq ι N) : Option (Option (Fin N)) :=
  if pq.bitmask = 0#32 then some none
  else match builtinCtz pq.bitmask with
    | none => none
    | some bit => priqDumbBest pq.links (.head (queue bit))

end code

/-! ## The lists -/

def qnodes (L : ι → List (Fin N)) : ι → List (QNode ι N) := fun i => (L i).map QNode.thread

/-- The list heads in memory have the threads `L`. -/
abbrev DumbRep (m : Links (QNode ι N)) (L : ι → List (Fin N)) : Prop := IsRings m QNode.head (qnodes L)

section dumb

variable {prio : Fin N → ℤ} {m : Links (QNode ι N)} {L : ι → List (Fin N)} {i : ι} {x : Fin N}

theorem not_mem_qnodes (hx : ∀ j, x ∉ L j) (j : ι) : QNode.thread x ∉ QNode.head j :: qnodes L j := by
  simp [qnodes, hx j]

section

variable [DecidableEq ι]

theorem qnodes_update (L : ι → List (Fin N)) (i : ι) (l : List (Fin N)) :
    qnodes (update L i l) = update (qnodes L) i (l.map QNode.thread) := by
  funext j
  by_cases h : j = i
  · subst h; simp [qnodes]
  · simp [qnodes, h]

end

variable (h : DumbRep m L)

include h

theorem DumbRep.nodup (i : ι) : (L i).Nodup := (h.ring i).nodup_tail.of_map _

theorem DumbRep.length_le (i : ι) : (L i).length ≤ N := by
  simpa using (h.nodup i).length_le_card

variable [DecidableEq ι]

theorem priqDumbAddLoop_spec (hx : ∀ j, x ∉ L j) {A B : List (Fin N)} (hL : L i = A ++ B)
    (hA : ∀ a ∈ A, prio a ≤ prio x) {fuel : Nat} (hf : B.length < fuel) :
    ∃ m', priqDumbAddLoop prio m (.head i) x fuel (B.head?.map QNode.thread) = some m' ∧
      DumbRep m' (update L i (enq prio x (L i))) := by
  induction B generalizing A fuel with
  | nil =>
    obtain ⟨fuel, rfl⟩ : ∃ k, fuel = k + 1 := ⟨fuel - 1, by simp at hf; omega⟩
    refine ⟨_, rfl, ?_⟩
    rw [hL, enq_append hA, DumbRep, qnodes_update]
    have := isRings_append (i := i) h (not_mem_qnodes hx)
    simpa [qnodes, hL] using this
  | cons y B ih =>
    obtain ⟨fuel, rfl⟩ : ∃ k, fuel = k + 1 := ⟨fuel - 1, by simp at hf; omega⟩
    simp only [List.head?_cons, Option.map_some, priqDumbAddLoop, isT1HigherPrioThanT2_iff]
    by_cases hlt : prio x < prio y
    · refine ⟨_, if_pos hlt, ?_⟩
      rw [hL, enq_append hA, enq_cons, if_pos hlt, DumbRep, qnodes_update]
      have := isRings_insertBefore (i := i) (l := A.map QNode.thread) (b := QNode.thread y) (r := B.map QNode.thread) h
        (by simp [qnodes, hL]) (not_mem_qnodes hx)
      simpa using this
    · rw [if_neg hlt]
      have hnext : sysDlistPeekNext m (.head i) (some (.thread y)) = B.head?.map QNode.thread := by
        have hr : IsRing m (.head i) (A.map QNode.thread ++ QNode.thread y :: B.map QNode.thread) := by
          simpa [qnodes, hL] using h.ring i
        rw [sysDlistPeekNext_eq hr, List.head?_map]
      rw [hnext]
      refine ih (A := A ++ [y]) (by simp [hL]) (fun a ha => ?_) (by simp at hf; omega)
      rcases mem_append.1 ha with ha | ha
      · exact hA a ha
      · rw [mem_singleton.1 ha]; exact not_lt.1 hlt

theorem DumbRep.peekHead (i : ι) : sysDlistPeekHead m (.head i) = (L i).head?.map QNode.thread := by
  rw [sysDlistPeekHead_eq (h.ring i), qnodes, List.head?_map]

variable (prio) in
/-- **`_priq_dumb_add` (sched.c:469)**, whether or not the list is in order. -/
theorem priqDumbAdd_spec (hx : ∀ j, x ∉ L j) :
    ∃ m', priqDumbAdd prio m (.head i) x = some m' ∧ DumbRep m' (update L i (enq prio x (L i))) := by
  have hlen := h.length_le i
  rw [priqDumbAdd, h.peekHead]
  exact priqDumbAddLoop_spec (A := []) h hx rfl (by simp) (by omega)

/-- **`_priq_dumb_remove` (sched.c:486)** -/
theorem priqDumbRemove_spec (hx : x ∈ L i) : DumbRep (priqDumbRemove m x) (update L i ((L i).erase x)) := by
  obtain ⟨A, B, hL⟩ := append_of_mem hx
  have hnd := h.nodup i
  have hxA : x ∉ A := by
    rw [hL, nodup_middle, nodup_cons, mem_append] at hnd
    exact fun ha => hnd.1 (.inl ha)
  have hr := isRings_remove (i := i) (n := QNode.thread x) (l := A.map QNode.thread) (r := B.map QNode.thread) h
    (by simp [qnodes, hL])
  rw [DumbRep, qnodes_update, hL, erase_append_right _ hxA, erase_cons_head]
  simpa [priqDumbRemove] using hr

theorem priqDumbBest_spec (i : ι) : priqDumbBest m (.head i) = some (L i).head? := by
  rw [priqDumbBest, h.peekHead]
  cases L i <;> rfl

end dumb

/-! ## The tree -/

/-- The key of a thread that is added when `next_order_key` wraps. -/
def wrapKey : Nat := 2 ^ 32 - 1

/-- The tree holds the threads `l`: in order of priority and then of their keys, which are those given out
since the last renumbering and possibly the one that caused it. -/
structure RbQueueRep (prio : Fin N → ℤ) (mem : RbMem N) (pq : PriqRb N) (l : List (Fin N)) : Prop where
  rep : ∃ T, RbRep mem.nodes pq.tree T ∧ T.inorder = l
  sorted : Sorted (priqRbLessthan prio mem.orderKey) l
  next_lt : pq.nextOrderKey < 2 ^ 32
  keys : ∀ y ∈ l, mem.orderKey y < pq.nextOrderKey ∨ mem.orderKey y = wrapKey

section rb

variable {prio : Fin N → ℤ} {key : Fin N → Nat} {mem : RbMem N} {pq : PriqRb N} {l : List (Fin N)} {x : Fin N}

theorem priqRbLessthan_iff {a b : Fin N} :
    priqRbLessthan prio key a b = true ↔ prio a < prio b ∨ (prio a = prio b ∧ key a < key b) := by
  unfold priqRbLessthan
  simp only [isT1HigherPrioThanT2_iff]
  split
  · simp [*]
  · split
    · simp only [Bool.false_eq_true, false_iff, not_or, not_and]
      exact ⟨by assumption, fun h => by omega⟩
    · rw [decide_eq_true_iff]
      constructor
      · intro h; exact .inr ⟨by omega, h⟩
      · rintro (h | h)
        · omega
        · exact h.2

theorem priqRbLessthan_asymm {a b : Fin N} (h : priqRbLessthan prio key a b = true) :
    priqRbLessthan prio key b a = false := by
  rw [Bool.eq_false_iff, ne_eq, priqRbLessthan_iff]
  rw [priqRbLessthan_iff] at h
  omega

theorem priqRbLessthan_trans (a b c : Fin N) (hab : priqRbLessthan prio key a b = true)
    (hbc : priqRbLessthan prio key b c = true) :
    priqRbLessthan prio key a c = true := by
  rw [priqRbLessthan_iff] at *
  omega

/-- Renumbered in their order, the threads of the queue have the keys `n`, `n + 1`, ... -/
theorem renumber_spec (l : List (Fin N)) : ∀ (key : Fin N → Nat) (n : Nat), l.Nodup → n + l.length < 2 ^ 32 →
    (renumber l (key, n)).2 = n + l.length ∧ (∀ z ∉ l, (renumber l (key, n)).1 z = key z) ∧
      (∀ y ∈ l, n ≤ (renumber l (key, n)).1 y ∧ (renumber l (key, n)).1 y < n + l.length) ∧
      l.Pairwise fun a b => (renumber l (key, n)).1 a < (renumber l (key, n)).1 b := by
  induction l with
  | nil => intro key n _ _; simp [renumber]
  | cons t l ih =>
    intro key n hnd hlen
    obtain ⟨ht, hnd⟩ := nodup_cons.1 hnd
    rw [length_cons] at hlen
    have hb : bump n = n + 1 := by rw [bump, Nat.mod_eq_of_lt (by omega)]
    obtain ⟨h1, h2, h3, h4⟩ := ih (update key t n) (n + 1) hnd (by omega)
    have hkt : (renumber l (update key t n, n + 1)).1 t = n := by rw [h2 t ht]; simp
    simp only [renumber, hb, length_cons]
    refine ⟨by omega, fun z hz => ?_, fun y hy => ?_, pairwise_cons.2 ⟨fun b hb => ?_, h4⟩⟩
    · simp only [mem_cons, not_or] at hz
      rw [h2 z hz.2]
      simp [hz.1]
    · rcases mem_cons.1 hy with rfl | hy
      · rw [hkt]; omega
      · have := h3 y hy; omega
    · rw [hkt]; have := (h3 b hb).1; omega

/-- Nobody of the priority of `x` has the key that was given when the counter wrapped, unless it wraps again now. -/
def KeyFree (prio : Fin N → ℤ) (mem : RbMem N) (pq : PriqRb N) (l : List (Fin N)) (x : Fin N) : Prop :=
  ∀ y ∈ l, prio y = prio x → mem.orderKey y = wrapKey → pq.nextOrderKey = wrapKey

/-- An empty queue, whatever was in memory. -/
theorem RbQueueRep.empty (mem : RbMem N) : RbQueueRep prio mem (emptyRb N) [] :=
  ⟨⟨.nil, ⟨trivial, rfl, InRange.nil 0, by simp⟩, rfl⟩, List.Pairwise.nil, Nat.two_pow_pos 32, by simp⟩

variable (h : RbQueueRep prio mem pq l)

include h

theorem RbQueueRep.nodup : l.Nodup := by
  obtain ⟨T, hT, rfl⟩ := h.rep
  exact hT.nodup

theorem RbQueueRep.ordered : Ordered prio l :=
  h.sorted.imp fun hlt => by
    rw [priqRbLessthan_iff] at hlt
    omega

theorem giveOrderKey_spec (hx : x ∉ l) (hl : l.length < 2 ^ 32) :
    ∃ key next, giveOrderKey mem pq x = some (key, next) ∧
      Sorted (priqRbLessthan prio key) l ∧ next < 2 ^ 32 ∧ (∀ y ∈ x :: l, key y < next ∨ key y = wrapKey) ∧
      (∀ y ∈ l, key y ≠ key x ∧ (KeyFree prio mem pq l x → prio y = prio x → key y < key x)) ∧
      ∀ z ∉ x :: l, key z = mem.orderKey z := by
  have hnext := h.next_lt
  have hxl : ∀ {y}, y ∈ l → y ≠ x := by rintro y hy rfl; exact hx hy
  by_cases hw : pq.nextOrderKey = wrapKey
  · -- the counter wraps: the others are numbered anew
    have hb : bump pq.nextOrderKey = 0 := by rw [hw]; rfl
    have hwk : wrapKey + 1 = 2 ^ 32 := rfl
    obtain ⟨T, hT, hin⟩ := h.rep
    have hN : l.length ≤ N := by simpa using h.nodup.length_le_card
    have hall : rbForEach mem.nodes pq.tree (N + 1) = some l := by
      rw [← hin]; exact rbForEach_eq hT (by rw [hin]; omega)
    obtain ⟨h1, h2, h3, h4⟩ := renumber_spec l (update mem.orderKey x pq.nextOrderKey) 0 h.nodup (by omega)
    have hkx : (renumber l (update mem.orderKey x pq.nextOrderKey, 0)).1 x = wrapKey := by
      rw [h2 x hx, update_self, hw]
    refine ⟨_, _, by rw [giveOrderKey, hb, if_pos rfl, hall]; rfl, ?_, by omega, fun y hy => ?_,
      fun y hy => ?_, fun z hz => ?_⟩
    · refine (h.ordered.and h4).imp fun {a b} hab => ?_
      rw [priqRbLessthan_iff]
      have := hab.2
      omega
    · rcases mem_cons.1 hy with rfl | hy
      · exact .inr hkx
      · have := (h3 y hy).2; left; omega
    · have := (h3 y hy).2
      exact ⟨by omega, fun _ _ => by omega⟩
    · simp only [mem_cons, not_or] at hz
      rw [h2 z hz.2]
      simp [hz.1]
  · have hb : bump pq.nextOrderKey = pq.nextOrderKey + 1 := by
      rw [bump, Nat.mod_eq_of_lt]
      simp only [wrapKey] at hw
      omega
    have hkey : ∀ {y}, y ∈ l → update mem.orderKey x pq.nextOrderKey y = mem.orderKey y :=
      fun hy => by simp [hxl hy]
    refine ⟨_, _, by rw [giveOrderKey, if_neg (by omega)], ?_, ?_, fun y hy => ?_, fun y hy => ?_, fun z hz => ?_⟩
    · refine h.sorted.imp_of_mem fun {a b} ha hb hab => ?_
      rw [priqRbLessthan_iff] at hab ⊢
      rwa [hkey ha, hkey hb]
    · simp only [wrapKey] at hw
      omega
    · rcases mem_cons.1 hy with rfl | hy
      · left; simp [hb]
      · rw [hkey hy]
        exact (h.keys y hy).imp (by omega) id
    · rw [hkey hy, update_self]
      refine ⟨?_, fun hfree hp => ?_⟩
      · rcases h.keys y hy with hlt | he
        · exact hlt.ne
        · rw [he]; exact Ne.symm hw
      · rcases h.keys y hy with hlt | he
        · exact hlt
        · exact absurd (hfree y hy hp he) hw
    · simp only [mem_cons, not_or] at hz
      simp [hz.1]

/-- The new thread goes to the place its key has among the keys of the others. -/
theorem priqRbAdd_at (hx : x ∉ l) {next : Nat} (hkeys : giveOrderKey mem pq x = some (key, next))
    (hsort : Sorted (priqRbLessthan prio key) l) (hnext : next < 2 ^ 32)
    (hbound : ∀ y ∈ x :: l, key y < next ∨ key y = wrapKey)
    {A B : List (Fin N)} (hAB : l = A ++ B) (hbefore : ∀ a ∈ A, priqRbLessthan prio key a x = true)
    (hafter : ∀ b ∈ B, priqRbLessthan prio key x b = true) :
    ∃ mem' pq', priqRbAdd prio mem pq x = some (mem', pq') ∧ RbQueueRep prio mem' pq' (A ++ x :: B) ∧
      mem'.orderKey = key ∧ pq'.nextOrderKey = next ∧ ∀ z ∉ x :: l, mem'.nodes z = mem.nodes z := by
  obtain ⟨T, hT, rfl⟩ := h.rep
  obtain ⟨H', t', T', hins, hT', hin, hframe⟩ :=
    rbInsert_spec hT hAB hx (fun a ha => priqRbLessthan_asymm (hbefore a ha)) hafter
  refine ⟨⟨H', key⟩, ⟨t', next⟩, by simp [priqRbAdd, hkeys, hins],
    ⟨⟨T', hT', hin⟩, ?_, hnext, fun y hy => ?_⟩, rfl, rfl, hframe⟩
  · exact (hAB ▸ hsort).insert hbefore hafter
  · refine hbound y ?_
    rw [hAB]
    simp only [mem_append, mem_cons] at hy ⊢
    tauto

/-- **`_priq_rb_add` (sched.c:515)**: the thread goes behind those of its priority, unless one of them has the key
of the last wrap and this is not the next one. -/
theorem priqRbAdd_spec (hx : x ∉ l) (hl : l.length < 2 ^ 32) :
    ∃ mem' pq' l', priqRbAdd prio mem pq x = some (mem', pq') ∧ RbQueueRep prio mem' pq' l' ∧ l'.Perm (x :: l) ∧
      (KeyFree prio mem pq l x → l' = enq prio x l) ∧
      ∀ z ∉ x :: l, mem'.nodes z = mem.nodes z ∧ mem'.orderKey z = mem.orderKey z := by
  obtain ⟨key, next, hkeys, hsort, hnext, hbound, hlast, hsame⟩ := giveOrderKey_spec h hx hl
  have hcmp : ∀ y ∈ l, priqRbLessthan prio key x y = true ∨ priqRbLessthan prio key y x = true := by
    intro y hy
    have := (hlast y hy).1
    simp only [priqRbLessthan_iff]
    omega
  obtain ⟨A, B, hAB, hA, hB⟩ := hsort.cut priqRbLessthan_trans hcmp
  obtain ⟨mem', pq', hadd, hrep, hk, -, hframe⟩ := priqRbAdd_at h hx hkeys hsort hnext hbound hAB hA hB
  refine ⟨mem', pq', A ++ x :: B, hadd, hrep, hAB ▸ perm_middle, fun hfree => ?_,
    fun z hz => ⟨hframe z hz, by rw [hk, hsame z hz]⟩⟩
  have hle : ∀ a ∈ A, prio a ≤ prio x := by
    intro a ha
    have := priqRbLessthan_iff.1 (hA a ha)
    omega
  have hlt : ∀ b ∈ B, prio x < prio b := by
    intro b hb
    have h1 := priqRbLessthan_iff.1 (hB b hb)
    have h2 := (hlast b (by simp [hAB, hb])).2 hfree
    omega
  rw [hAB, enq_append hle]
  cases B with
  | nil => rfl
  | cons b B => rw [enq_cons, if_pos (hlt b mem_cons_self)]

/-- **`_priq_rb_remove` (sched.c:540)** of a thread in the queue; the counter starts anew with an empty one. -/
theorem priqRbRemove_spec (hx : x ∈ l) :
    ∃ mem' pq', priqRbRemove prio mem pq x = some (mem', pq') ∧ RbQueueRep prio mem' pq' (l.erase x) ∧
      mem'.orderKey = mem.orderKey ∧ (l.erase x ≠ [] → pq'.nextOrderKey = pq.nextOrderKey) ∧
      ∀ z ∉ l, mem'.nodes z = mem.nodes z := by
  obtain ⟨T, hT, rfl⟩ := h.rep
  obtain ⟨A, B, hAB⟩ := append_of_mem hx
  have hnd := h.nodup
  have hs := h.sorted
  rw [hAB] at hs
  obtain ⟨hbefore, hafter⟩ := hs.mid
  obtain ⟨H', t', T', hrem, hT', hin, hframe⟩ :=
    rbRemove_spec hT hAB (fun a ha => priqRbLessthan_asymm (hbefore a ha)) hafter
  have herase : T.inorder.erase x = A ++ B := by
    rw [hAB, nodup_middle, nodup_cons, mem_append] at hnd
    rw [hAB, erase_append_right _ (fun ha => hnd.1 (.inl ha)), erase_cons_head]
  have hnext : A ++ B ≠ [] → (if t'.root = none then 0 else pq.nextOrderKey) = pq.nextOrderKey := by
    intro hne
    refine if_neg fun he => hne ?_
    rw [hT'.root, root?_eq_none] at he
    rw [← hin, he]
    rfl
  refine ⟨⟨H', mem.orderKey⟩, ⟨t', if t'.root = none then 0 else pq.nextOrderKey⟩, by simp [priqRbRemove, hrem],
    ⟨⟨T', hT', by rw [hin, herase]⟩, ?_, ?_, fun y hy => ?_⟩, rfl, herase ▸ hnext, hframe⟩
  · rw [herase]; exact hs.erase
  · have := h.next_lt
    dsimp only
    split <;> omega
  · dsimp only
    rw [hnext (ne_nil_of_mem (herase ▸ hy))]
    exact h.keys y (mem_of_mem_erase hy)

/-- **`_priq_rb_best` (sched.c:550)** -/
theorem priqRbBest_spec : priqRbBest mem pq = some l.head? := by
  obtain ⟨T, hT, rfl⟩ := h.rep
  have hd := hT.range.depth
  rw [priqRbBest, rbGetMinmax, hT.root, rbGetMinmaxLoop_eq hT.holds (by omega)]
  rfl

end rb

/-! ## The lists by priority -/

/-- The queue holds the threads `l`: each list those of its priority, each bit set if its list has one. -/
structure MqRep (prio : Fin N → ℤ) (queue : Fin 32 → ι) (highest : ℤ) (pq : PriqMq ι N) (L : ι → List (Fin N))
    (l : List (Fin N)) : Prop where
  rings : DumbRep pq.links L
  inj : Function.Injective queue
  ordered : Ordered prio l
  range : ∀ y ∈ l, ∃ b : Fin 32, prio y = highest + b.val
  lists : ∀ b : Fin 32, L (queue b) = l.filter (prio · = highest + b.val)
  mask : ∀ b : Fin 32, pq.bitmask.getLsbD b.val = true ↔ L (queue b) ≠ []

theorem builtinCtz_spec {w : BitVec 32} (hw : w ≠ 0#32) :
    ∃ b : Fin 32, builtinCtz w = some b ∧ w.getLsbD b.val = true ∧ ∀ c : Fin 32, w.getLsbD c.val = true → b ≤ c := by
  cases h : builtinCtz w with
  | none =>
    exfalso
    rw [builtinCtz, List.find?_eq_none] at h
    refine hw (BitVec.eq_of_getLsbD_eq fun i hi => ?_)
    simpa using h ⟨i, hi⟩ (mem_finRange _)
  | some b =>
    obtain ⟨hb, A, B, hAB, hA⟩ := List.find?_eq_some_iff_append.1 h
    refine ⟨b, rfl, hb, fun c hc => ?_⟩
    have hlt := pairwise_lt_finRange 32
    have hm := mem_finRange c
    rw [hAB] at hlt hm
    rcases mem_append.1 hm with hm | hm
    · exact absurd hc (by simpa using hA c hm)
    · rcases mem_cons.1 hm with rfl | hm
      · exact le_rfl
      · exact ((pairwise_cons.1 (pairwise_append.1 hlt).2.1).1 c hm).le

theorem getLsbD_one_shift {b c : Nat} (h : c ≠ b) : (1#32 <<< b).getLsbD c = false := by
  simp only [BitVec.getLsbD_shiftLeft, BitVec.getLsbD_one]
  grind

section mq

variable [DecidableEq ι] {prio : Fin N → ℤ} {queue : Fin 32 → ι} {highest : ℤ} {pq : PriqMq ι N} {L : ι → List (Fin N)}
  {l : List (Fin N)} {x : Fin N}

omit [DecidableEq ι] in
theorem priorityBit_eq {b : Fin 32} (h : prio x = highest + b.val) : priorityBit prio highest x = some b := by
  have : prio x - highest = b.val := by omega
  simp only [priorityBit, this]
  rw [dif_pos (by omega)]
  simp

/-- **`_priq_mq_add` (sched.c:562)** of a thread whose priority has a list. -/
theorem priqMqAdd_spec (h : MqRep prio queue highest pq L l) (hx : ∀ j, x ∉ L j) {b : Fin 32}
    (hb : prio x = highest + b.val) :
    ∃ pq', priqMqAdd prio queue highest pq x = some pq' ∧
      MqRep prio queue highest pq' (update L (queue b) (L (queue b) ++ [x])) (enq prio x l) := by
  have hrings := isRings_append (i := queue b) h.rings (not_mem_qnodes hx)
  refine ⟨⟨sysDlistAppend pq.links (.head (queue b)) (.thread x), pq.bitmask ||| (1#32 <<< b.val)⟩,
    by simp [priqMqAdd, priorityBit_eq hb], ?_, h.inj, h.ordered.enq, fun y hy => ?_, fun c => ?_, fun c => ?_⟩
  · rw [DumbRep, qnodes_update]
    simpa [qnodes] using hrings
  · rcases mem_enq.1 hy with rfl | hy
    · exact ⟨b, hb⟩
    · exact h.range y hy
  · rw [h.ordered.filter_enq, filter_append]
    by_cases hc : c = b
    · subst hc; simp [h.lists, hb]
    · have hne : ¬ prio x = highest + c.val := fun e => hc (Fin.ext (by omega))
      rw [update_of_ne (fun e => hc (h.inj e)), h.lists]
      simp [hne]
  · by_cases hc : c = b
    · subst hc; simp
    · rw [update_of_ne (fun e => hc (h.inj e)), ← h.mask]
      have hv : c.val ≠ b.val := fun e => hc (Fin.ext e)
      simp only [BitVec.getLsbD_or, getLsbD_one_shift hv, Bool.or_false]

/-- **`_priq_mq_remove` (sched.c:569)** of a thread of the queue. -/
theorem priqMqRemove_spec (h : MqRep prio queue highest pq L l) (hx : x ∈ l) {b : Fin 32}
    (hb : prio x = highest + b.val) :
    ∃ pq', priqMqRemove prio queue highest pq x = some pq' ∧
      MqRep prio queue highest pq' (update L (queue b) ((L (queue b)).erase x)) (l.erase x) := by
  have hxL : x ∈ L (queue b) := by rw [h.lists]; simp [hx, hb]
  have hrep := priqDumbRemove_spec h.rings hxL
  have hempty := sysDlistIsEmpty_iff (hrep.ring (queue b))
  have hl : ∀ c : Fin 32, update L (queue b) ((L (queue b)).erase x) (queue c) =
      (l.erase x).filter (prio · = highest + c.val) := by
    intro c
    rw [← erase_filter]
    by_cases hc : c = b
    · subst hc; rw [update_self, h.lists]
    · rw [update_of_ne (fun e => hc (h.inj e)), h.lists, erase_of_not_mem]
      simp only [mem_filter, decide_eq_true_eq, not_and]
      exact fun _ e => hc (Fin.ext (by omega))
  refine ⟨⟨priqDumbRemove pq.links x, if sysDlistIsEmpty (priqDumbRemove pq.links x) (.head (queue b)) then
      pq.bitmask &&& ~~~(1#32 <<< b.val) else pq.bitmask⟩,
    by simp only [priqMqRemove, priorityBit_eq hb]; rfl, hrep, h.inj, h.ordered.sublist erase_sublist,
    fun y hy => h.range y (mem_of_mem_erase hy), hl, fun c => ?_⟩
  have hmask := h.mask c
  by_cases hc : c = b
  · subst hc
    -- the bit goes exactly when the last thread of its list does
    have hset : pq.bitmask.getLsbD c.val = true := hmask.2 (ne_nil_of_mem hxL)
    rw [update_self]
    by_cases he : (L (queue c)).erase x = []
    · simp [hempty, qnodes, he]
    · simp [hempty, qnodes, he, hset]
  · have hv : c.val ≠ b.val := fun e => hc (Fin.ext e)
    rw [update_of_ne (fun e => hc (h.inj e)), ← hmask]
    dsimp only
    split
    · simp only [BitVec.getLsbD_and, BitVec.getLsbD_not, getLsbD_one_shift hv, c.isLt, decide_true, Bool.not_false,
        Bool.and_true]
    · rfl

/-- **`_priq_mq_best` (sched.c:581)** -/
theorem priqMqBest_spec (h : MqRep prio queue highest pq L l) : priqMqBest queue pq = some l.head? := by
  by_cases hw : pq.bitmask = 0#32
  · have hl : l = [] := by
      refine eq_nil_iff_forall_not_mem.2 fun y hy => ?_
      obtain ⟨b, hb⟩ := h.range y hy
      have hne : L (queue b) ≠ [] := by
        rw [h.lists]
        exact ne_nil_of_mem (mem_filter.2 ⟨hy, by simpa using hb⟩)
      simpa [hw] using (h.mask b).2 hne
    rw [priqMqBest, if_pos hw, hl]; rfl
  · obtain ⟨b, hctz, hb, hmin⟩ := builtinCtz_spec hw
    rw [priqMqBest, if_neg hw, hctz]
    simp only
    rw [priqDumbBest_spec h.rings, h.lists]
    obtain ⟨y, hy⟩ := exists_mem_of_ne_nil _ ((h.mask b).1 hb)
    rw [h.lists, mem_filter, decide_eq_true_eq] at hy
    cases l with
    | nil => simp at hy
    | cons a l =>
      -- the head's own list is the first that is not empty
      obtain ⟨c, hc⟩ := h.range a mem_cons_self
      have hbc : b ≤ c := hmin c ((h.mask c).2 (by rw [h.lists]; simp [hc]))
      have hay : prio a ≤ prio y := by
        rcases mem_cons.1 hy.1 with rfl | hyl
        · exact le_rfl
        · exact (pairwise_cons.1 h.ordered).1 y hyl
      have hcb : c = b := le_antisymm (Fin.le_def.2 (by omega)) hbc
      rw [filter_cons_of_pos (by simp [hc, hcb]), List.head?_cons, List.head?_cons]

end mq

end Zephyr
