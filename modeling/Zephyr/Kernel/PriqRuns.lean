import Zephyr.Kernel.Priq
/-!
# The thread queues under every run of operations

`CONFIG_SCHED_DUMB`, `CONFIG_SCHED_SCALABLE` and `CONFIG_SCHED_MULTIQ` choose one of three queues for the
ready threads. A run adds threads that are not in the queue and removes threads that are; the purpose of
all three is that the best thread is the first arrival among those of smallest `prio`.
-/
namespace Zephyr

open Ring RedBlack StableQueue Function

variable {N : Nat}

/-- One implementation of a queue of threads. -/
structure Priq (N : Nat) (σ : Type) where
  add : σ → Fin N → Option σ
  remove : σ → Fin N → Option σ
  best : σ → Option (Option (Fin N))

def dumbPriq (prio : Fin N → ℤ) : Priq N (Links (QNode Unit N)) where
  add m thread := priqDumbAdd prio m (.head ()) thread
  remove m thread := some (priqDumbRemove m thread)
  best m := priqDumbBest m (.head ())

def rbPriq (prio : Fin N → ℤ) : Priq N (RbMem N × PriqRb N) where
  add s thread := priqRbAdd prio s.1 s.2 thread
  remove s thread := priqRbRemove prio s.1 s.2 thread
  best s := priqRbBest s.1 s.2

def mqPriq (prio : Fin N → ℤ) (highest : ℤ) : Priq N (PriqMq (Fin 32) N) where
  add := priqMqAdd prio id highest
  remove := priqMqRemove prio id highest
  best := priqMqBest id

/-! ## The queues at boot -/

/-- `sys_dlist_init` for each of the list heads. -/
def initQueues {ι : Type} [DecidableEq ι] (heads : List ι) (m : Links (QNode ι N)) : Links (QNode ι N) :=
  heads.foldl (fun m i => sysDlistInit m (.head i)) m

theorem initQueues_self {ι : Type} [DecidableEq ι] (heads : List ι) (m : Links (QNode ι N)) (i : ι)
    (h : i ∈ heads ∨ m.next (.head i) = .head i ∧ m.prev (.head i) = .head i) :
    (initQueues heads m).next (.head i) = .head i ∧ (initQueues heads m).prev (.head i) = .head i := by
  induction heads generalizing m with
  | nil => simpa [initQueues] using h
  | cons j heads ih =>
    refine ih (sysDlistInit m (.head j)) ?_
    by_cases hij : i = j
    · right; subst hij; simp [sysDlistInit]
    · refine h.imp (fun hm => (List.mem_cons.1 hm).resolve_left hij) fun hm => ?_
      have hne : (QNode.head i : QNode ι N) ≠ .head j := fun e => hij (QNode.head.inj e)
      simpa [sysDlistInit, Links.setNext_next_ne _ _ hne, Links.setPrev_prev_ne _ _ hne] using hm

theorem initQueues_rep {ι : Type} [DecidableEq ι] {heads : List ι} (h : ∀ i, i ∈ heads) (m : Links (QNode ι N)) :
    DumbRep (initQueues heads m) fun _ => [] where
  ring i := ⟨by simp [qnodes], by
    have := initQueues_self heads m i (.inl (h i))
    simpa [qnodes, Chain] using this⟩
  disj i j hij c hc := by
    have : c = .head i := by simpa [qnodes] using hc
    simpa [this, qnodes] using hij

/-! ## Runs -/

inductive PriqOp (N : Nat) where
  | add (thread : Fin N)
  | remove (thread : Fin N)
deriving DecidableEq

def Priq.step {σ : Type} (q : Priq N σ) (s : σ) : PriqOp N → Option σ
  | .add thread => q.add s thread
  | .remove thread => q.remove s thread

def Priq.run {σ : Type} (q : Priq N σ) (s : σ) (ops : List (PriqOp N)) : Option σ := ops.foldlM q.step s

variable {σ : Type} {q : Priq N σ} {s : RbMem 4 × PriqRb 4}

theorem Priq.run_append {s s' : σ} {ops : List (PriqOp N)} (h : q.run s ops = some s') (ops' : List (PriqOp N)) :
    q.run s (ops ++ ops') = q.run s' ops' := by
  unfold Priq.run at h ⊢
  rw [List.foldlM_append, h]
  rfl

/-- The threads of the queue in the order in which they were added. -/
def arrive (arr : List (Fin N)) : PriqOp N → List (Fin N)
  | .add thread => arr ++ [thread]
  | .remove thread => arr.erase thread

def PriqOp.Legal (arr : List (Fin N)) : PriqOp N → Prop
  | .add thread => thread ∉ arr
  | .remove thread => thread ∈ arr

instance (arr : List (Fin N)) : (op : PriqOp N) → Decidable (op.Legal arr)
  | .add thread => inferInstanceAs (Decidable (thread ∉ arr))
  | .remove thread => inferInstanceAs (Decidable (thread ∈ arr))

def LegalRun : List (Fin N) → List (PriqOp N) → Prop
  | _, [] => True
  | arr, op :: ops => op.Legal arr ∧ LegalRun (arrive arr op) ops

instance decidableLegalRun : (arr : List (Fin N)) → (ops : List (PriqOp N)) → Decidable (LegalRun arr ops)
  | _, [] => isTrue trivial
  | arr, op :: ops => @instDecidableAnd _ _ _ (decidableLegalRun (arrive arr op) ops)

def arrivals (ops : List (PriqOp N)) : List (Fin N) := ops.foldl arrive []

/-- What the tree needs of an addition. -/
def AddsFree (prio : Fin N → ℤ) (arr : List (Fin N)) (s : RbMem N × PriqRb N) : PriqOp N → Prop
  | .add thread => KeyFree prio s.1 s.2 arr thread
  | .remove _ => True

/-- `ok` holds before each step of the run. -/
def Priq.Along {σ : Type} (q : Priq N σ) (ok : List (Fin N) → σ → PriqOp N → Prop) :
    List (Fin N) → σ → List (PriqOp N) → Prop
  | _, _, [] => True
  | arr, s, op :: ops => ok arr s op ∧ ∀ s', q.step s op = some s' → q.Along ok (arrive arr op) s' ops

/-- A relation to the arrivals that every permitted step keeps holds to the end of the run, and the run gets there. -/
theorem Priq.run_keeps {ok : List (Fin N) → σ → PriqOp N → Prop} {R : List (Fin N) → σ → Prop}
    (hstep : ∀ arr s op, R arr s → op.Legal arr → ok arr s op → ∃ s', q.step s op = some s' ∧ R (arrive arr op) s')
    {ops : List (PriqOp N)} {arr : List (Fin N)} {s : σ} (h : R arr s) (hlegal : LegalRun arr ops)
    (hok : q.Along ok arr s ops) :
    ∃ s', q.run s ops = some s' ∧ R (ops.foldl arrive arr) s' := by
  induction ops generalizing arr s with
  | nil => exact ⟨s, rfl, h⟩
  | cons op ops ih =>
    obtain ⟨s1, hs1, h1⟩ := hstep arr s op h hlegal.1 hok.1
    obtain ⟨s2, hs2, h2⟩ := ih h1 hlegal.2 (hok.2 s1 hs1)
    refine ⟨s2, ?_, h2⟩
    unfold Priq.run at hs2 ⊢
    rw [List.foldlM_cons, hs1]
    exact hs2

theorem Priq.along_of_forall {ok : List (Fin N) → σ → PriqOp N → Prop} (h : ∀ arr s op, ok arr s op) :
    ∀ (ops : List (PriqOp N)) (arr : List (Fin N)) (s : σ), q.Along ok arr s ops
  | [], _, _ => trivial
  | op :: ops, arr, s => ⟨h arr s op, fun s' _ => Priq.along_of_forall h ops (arrive arr op) s'⟩

/-! ## Each queue keeps up with the arrivals -/

section steps

variable {prio : Fin N → ℤ} {highest : ℤ} {arr : List (Fin N)} {op : PriqOp N}

def DumbFollows (prio : Fin N → ℤ) (arr : List (Fin N)) (m : Links (QNode Unit N)) : Prop :=
  ∃ l, DumbRep m (fun _ => l) ∧ Follows prio arr l

def RbFollows (prio : Fin N → ℤ) (arr : List (Fin N)) (s : RbMem N × PriqRb N) : Prop :=
  ∃ l, RbQueueRep prio s.1 s.2 l ∧ Follows prio arr l

def MqFollows (prio : Fin N → ℤ) (highest : ℤ) (arr : List (Fin N)) (pq : PriqMq (Fin 32) N) : Prop :=
  ∃ L l, MqRep prio id highest pq L l ∧ Follows prio arr l

theorem update_unit (L : Unit → List (Fin N)) (l : List (Fin N)) : update L () l = fun _ => l := by
  funext j; simp

theorem dumb_step {m : Links (QNode Unit N)} (h : DumbFollows prio arr m) (hop : op.Legal arr) :
    ∃ m', (dumbPriq prio).step m op = some m' ∧ DumbFollows prio (arrive arr op) m' := by
  obtain ⟨l, hrep, hfol⟩ := h
  cases op with
  | add thread =>
    obtain ⟨m', hadd, hrep'⟩ := priqDumbAdd_spec prio (i := ()) hrep (fun _ hm => hop (hfol.mem.1 hm))
    rw [update_unit] at hrep'
    exact ⟨m', hadd, _, hrep', hfol.enq⟩
  | remove thread =>
    have hrep' := priqDumbRemove_spec (i := ()) hrep (hfol.mem.2 hop)
    rw [update_unit] at hrep'
    exact ⟨_, rfl, _, hrep', hfol.erase thread⟩

theorem rb_step (hN : N ≤ 2 ^ 32) {s : RbMem N × PriqRb N} (h : RbFollows prio arr s) (hop : op.Legal arr)
    (hkey : AddsFree prio arr s op) :
    ∃ s', (rbPriq prio).step s op = some s' ∧ RbFollows prio (arrive arr op) s' := by
  obtain ⟨l, hrep, hfol⟩ := h
  cases op with
  | add thread =>
    have hx : thread ∉ l := fun hm => hop (hfol.mem.1 hm)
    have hlen : l.length + 1 ≤ N := by
      simpa using (List.nodup_cons.2 ⟨hx, hrep.nodup⟩).length_le_card
    obtain ⟨mem', pq', l', hadd, hrep', -, henq, -⟩ := priqRbAdd_spec hrep hx (by omega)
    refine ⟨(mem', pq'), hadd, l', hrep', ?_⟩
    rw [henq fun y hy => hkey y (hfol.mem.1 hy)]
    exact hfol.enq
  | remove thread =>
    obtain ⟨mem', pq', hrem, hrep', -⟩ := priqRbRemove_spec hrep (hfol.mem.2 hop)
    exact ⟨(mem', pq'), hrem, _, hrep', hfol.erase thread⟩

theorem mq_step (hprio : ∀ t, ∃ b : Fin 32, prio t = highest + b.val) {pq : PriqMq (Fin 32) N}
    (h : MqFollows prio highest arr pq) (hop : op.Legal arr) : ∃ pq', (mqPriq prio highest).step pq op = some pq' ∧
    MqFollows prio highest (arrive arr op) pq' := by
  obtain ⟨L, l, hrep, hfol⟩ := h
  cases op with
  | add thread =>
    obtain ⟨b, hb⟩ := hprio thread
    have hx : ∀ j, thread ∉ L j := by
      intro j hm
      have hj := hrep.lists j
      rw [id_eq] at hj
      rw [hj] at hm
      exact hop (hfol.mem.1 (List.mem_of_mem_filter hm))
    obtain ⟨pq', hadd, hrep'⟩ := priqMqAdd_spec hrep hx hb
    exact ⟨pq', hadd, _, _, hrep', hfol.enq⟩
  | remove thread =>
    obtain ⟨b, hb⟩ := hprio thread
    obtain ⟨pq', hrem, hrep'⟩ := priqMqRemove_spec hrep (hfol.mem.2 hop) hb
    exact ⟨pq', hrem, _, _, hrep', hfol.erase thread⟩

end steps

/-! ## The three queues agree -/

section agree

variable {prio : Fin N → ℤ} {highest : ℤ} {ops : List (PriqOp N)}

theorem dumb_best (hlegal : LegalRun [] ops) (m : Links (QNode Unit N)) :
    ∃ s, (dumbPriq prio).run (initQueues [()] m) ops = some s ∧
    (dumbPriq prio).best s = some (first prio (arrivals ops)) := by
  have h0 : DumbFollows prio [] (initQueues [()] m) := ⟨[], initQueues_rep (by simp) m, Follows.nil⟩
  obtain ⟨s, hrun, l, hrep, hfol⟩ := Priq.run_keeps (q := dumbPriq prio)
    (fun _ _ _ h hop _ => dumb_step h hop) h0 hlegal
    (Priq.along_of_forall (fun _ _ _ => trivial) ops [] _)
  refine ⟨s, hrun, ?_⟩
  rw [arrivals, ← hfol.head?]
  exact priqDumbBest_spec hrep ()

theorem mq_best (hprio : ∀ t, ∃ b : Fin 32, prio t = highest + b.val) (hlegal : LegalRun [] ops)
    (m : Links (QNode (Fin 32) N)) :
    ∃ s, (mqPriq prio highest).run ⟨initQueues (List.finRange 32) m, 0#32⟩ ops = some s ∧
      (mqPriq prio highest).best s = some (first prio (arrivals ops)) := by
  have h0 : MqFollows prio highest [] ⟨initQueues (List.finRange 32) m, 0#32⟩ :=
    ⟨fun _ => [], [], ⟨initQueues_rep List.mem_finRange m, injective_id, List.Pairwise.nil, by simp,
      fun _ => rfl, by simp⟩,
      Follows.nil⟩
  obtain ⟨s, hrun, L, l, hrep, hfol⟩ := Priq.run_keeps (q := mqPriq prio highest)
    (fun _ _ _ h hop _ => mq_step hprio h hop) h0
    hlegal (Priq.along_of_forall (fun _ _ _ => trivial) ops [] _)
  refine ⟨s, hrun, ?_⟩
  rw [arrivals, ← hfol.head?]
  exact priqMqBest_spec hrep

theorem rb_best (hN : N ≤ 2 ^ 32) (hlegal : LegalRun [] ops) (mem : RbMem N)
    (hkey : (rbPriq prio).Along (AddsFree prio) [] (mem, emptyRb N) ops) :
    ∃ s, (rbPriq prio).run (mem, emptyRb N) ops = some s ∧ (rbPriq prio).best s = some (first prio (arrivals ops)) := by
  have h0 : RbFollows prio [] (mem, emptyRb N) := ⟨[], RbQueueRep.empty mem, Follows.nil⟩
  obtain ⟨s, hrun, l, hrep, hfol⟩ := Priq.run_keeps (q := rbPriq prio)
    (fun _ _ _ h hop hk => rb_step hN h hop hk) h0 hlegal hkey
  refine ⟨s, hrun, ?_⟩
  rw [arrivals, ← hfol.head?]
  exact priqRbBest_spec hrep

/-- **The three ready queues are interchangeable** (sched.c:469-590). After every run, from whatever was in memory
at boot, each finds the first arrival of smallest `prio`; the tree does as long as every addition finds the
keys of its priority free. -/
theorem priqs_interchangeable (hN : N ≤ 2 ^ 32) (hprio : ∀ t, ∃ b : Fin 32, prio t = highest + b.val)
    (hlegal : LegalRun [] ops) (m : Links (QNode Unit N)) (mm : Links (QNode (Fin 32) N)) (mem : RbMem N) :
    (∃ s, (dumbPriq prio).run (initQueues [()] m) ops = some s ∧
      (dumbPriq prio).best s = some (first prio (arrivals ops))) ∧
      (∃ s, (mqPriq prio highest).run ⟨initQueues (List.finRange 32) mm, 0#32⟩ ops = some s ∧
        (mqPriq prio highest).best s = some (first prio (arrivals ops))) ∧
      ((rbPriq prio).Along (AddsFree prio) [] (mem, emptyRb N) ops →
        ∃ s, (rbPriq prio).run (mem, emptyRb N) ops = some s ∧
        (rbPriq prio).best s = some (first prio (arrivals ops))) :=
  ⟨dumb_best hlegal m, mq_best hprio hlegal mm, rb_best hN hlegal mem⟩

end agree

def anyLinks (ι : Type) (N : Nat) : Links (QNode ι N) := ⟨id, id⟩

def zeroMem (N : Nat) : RbMem N := ⟨fun _ => ⟨fun _ => none, .red⟩, fun _ => 0⟩

/-- Threads of one priority. -/
def evenPrio (N : Nat) : Fin N → ℤ := fun _ => 0

theorem priqs_interchangeable_twoThreads :
    (∃ s, (dumbPriq (evenPrio 2)).run (initQueues [()] (anyLinks Unit 2)) [.add 1, .add 0, .remove 1] = some s ∧
        (dumbPriq (evenPrio 2)).best s = some (some 0)) ∧
      (∃ s, (mqPriq (evenPrio 2) 0).run ⟨initQueues (List.finRange 32) (anyLinks (Fin 32) 2), 0#32⟩ [.add 1,
        .add 0, .remove 1] = some s ∧ (mqPriq (evenPrio 2) 0).best s = some (some 0)) ∧
      ∃ s, (rbPriq (evenPrio 2)).run (zeroMem 2, emptyRb 2) [.add 1, .add 0, .remove 1] = some s ∧
        (rbPriq (evenPrio 2)).best s = some (some 0) := by
  have h := @priqs_interchangeable 2 (evenPrio 2) 0 [.add 1, .add 0, .remove 1] (by decide)
    (fun _ => ⟨0, rfl⟩) (by decide) (anyLinks Unit 2) (anyLinks (Fin 32) 2) (zeroMem 2)
  refine ⟨h.1, h.2.1, h.2.2 ⟨by simp [AddsFree, KeyFree],
    fun s1 h1 => ⟨?_, fun s2 _ => ⟨trivial, fun s3 _ => trivial⟩⟩⟩⟩
  cases h1
  intro y _ _ hy
  simp [wrapKey, zeroMem, emptyRb, update_apply] at hy

/-! ## The counter wraps

One thread stays in the queue while another comes and goes until `next_order_key` is `2 ^ 32 - 1`. The next
thread gets that key. The loop at sched.c:530 numbers those that are in the tree, and it is not one of them
yet: it keeps the largest key, and whoever comes after it is put in front of it. -/

theorem giveOrderKey_next (mem : RbMem N) (pq : PriqRb N) (x : Fin N) (h : pq.nextOrderKey + 1 < 2 ^ 32) :
    giveOrderKey mem pq x = some (update mem.orderKey x pq.nextOrderKey, pq.nextOrderKey + 1) := by
  unfold giveOrderKey
  simp only [bump, Nat.mod_eq_of_lt h]
  rw [if_neg (by omega)]

def comeAndGo : Nat → List (PriqOp 4)
  | 0 => []
  | n + 1 => .add 1 :: .remove 1 :: comeAndGo n

def wrapOps : List (PriqOp 4) := .add 0 :: (comeAndGo (2 ^ 32 - 2) ++ [.add 2, .add 3, .remove 0])

theorem comeAndGo_legal (n : Nat) (ops : List (PriqOp 4)) (h : LegalRun [0] ops) :
    LegalRun [0] (comeAndGo n ++ ops) := by
  induction n with
  | zero => exact h
  | succ n ih => exact ⟨by decide, by decide, ih⟩

theorem comeAndGo_arrivals (n : Nat) : (comeAndGo n).foldl arrive [0] = [0] := by
  induction n with
  | zero => rfl
  | succ n ih => exact ih

theorem evenPrio_lessthan {key : Fin N → Nat} {a b : Fin N} :
    priqRbLessthan (evenPrio N) key a b = true ↔ key a < key b := by
  rw [priqRbLessthan_iff]
  simp [evenPrio]

/-- Only the first thread is in the queue, and `k + 1` keys have been given. -/
structure OneLeft (k : Nat) (s : RbMem 4 × PriqRb 4) : Prop where
  rep : RbQueueRep (evenPrio 4) s.1 s.2 [0]
  key : s.1.orderKey 0 = 0
  next : s.2.nextOrderKey = k + 1

theorem OneLeft.round {k : Nat} (h : OneLeft k s) (hk : k + 2 < 2 ^ 32) :
    ∃ s', (rbPriq (evenPrio 4)).run s [.add 1, .remove 1] = some s' ∧ OneLeft (k + 1) s' := by
  have hnext := h.next
  have hkey := giveOrderKey_next s.1 s.2 1 (by omega)
  obtain ⟨mem1, pq1, hadd, hrep1, hk1, hn1, -⟩ :=
    priqRbAdd_at h.rep (by decide) hkey (List.pairwise_singleton _ _) (by omega)
    (by simp [h.key]) (A := [0]) (B := []) rfl (by simp [evenPrio_lessthan, h.key, hnext]) (by simp)
  obtain ⟨mem2, pq2, hrem, hrep2, hk2, hn2, -⟩ := priqRbRemove_spec (x := 1) hrep1 (by decide)
  refine ⟨(mem2, pq2), ?_, hrep2, ?_, ?_⟩
  · show (priqRbAdd (evenPrio 4) s.1 s.2 1).bind _ = _
    rw [hadd]
    exact congrArg (Option.bind · _) hrem
  · simp [hk2, hk1, h.key]
  · rw [hn2 (by decide), hn1, hnext]

theorem OneLeft.rounds (n : Nat) {k : Nat} (h : OneLeft k s) (hk : k + n + 1 < 2 ^ 32) :
    ∃ s', (rbPriq (evenPrio 4)).run s (comeAndGo n) = some s' ∧ OneLeft (k + n) s' := by
  induction n generalizing k s with
  | zero => exact ⟨s, rfl, h⟩
  | succ n ih =>
    obtain ⟨s1, hs1, h1⟩ := h.round (by omega)
    obtain ⟨s2, hs2, h2⟩ := ih h1 (by omega)
    refine ⟨s2, ?_, by rwa [add_right_comm] at h2⟩
    exact (Priq.run_append hs1 (comeAndGo n)).trans hs2

/-- The last three operations: the third thread has the key of the wrap, the fourth goes in front of it. -/
theorem OneLeft.wrap (h : OneLeft (2 ^ 32 - 2) s) :
    ∃ s', (rbPriq (evenPrio 4)).run s [.add 2, .add 3, .remove 0] = some s' ∧
    (rbPriq (evenPrio 4)).best s' = some (some 3) := by
  have hnext : s.2.nextOrderKey = wrapKey := h.next
  obtain ⟨T, hT, hin⟩ := h.rep.rep
  have hall : rbForEach s.1.nodes s.2.tree 5 = some [0] := by
    rw [← hin]; exact rbForEach_eq hT (by rw [hin]; decide)
  have hkey : giveOrderKey s.1 s.2 2 = some (update (update s.1.orderKey 2 wrapKey) 0 0, 1) := by
    have hbump : bump wrapKey = 0 := rfl
    unfold giveOrderKey
    simp only [hnext, hbump, if_true, hall]
    rfl
  obtain ⟨mem1, pq1, hadd1, hrep1, hk1, hn1, -⟩ :=
    priqRbAdd_at h.rep (by decide) hkey (List.pairwise_singleton _ _) (by decide)
    (by simp) (A := [0]) (B := []) rfl (by simp [evenPrio_lessthan, wrapKey]) (by simp)
  have hkey2 := giveOrderKey_next mem1 pq1 3 (by rw [hn1]; decide)
  rw [hk1, hn1] at hkey2
  obtain ⟨mem2, pq2, hadd2, hrep2, -⟩ := priqRbAdd_at hrep1 (by decide) hkey2
    (by simp [Sorted, evenPrio_lessthan, wrapKey]) (by decide) (by simp) (A := [0]) (B := [2]) rfl
    (by simp [evenPrio_lessthan]) (by simp [evenPrio_lessthan, wrapKey])
  obtain ⟨mem3, pq3, hrem, hrep3, -⟩ := priqRbRemove_spec (x := 0) hrep2 (by decide)
  refine ⟨(mem3, pq3), ?_, priqRbBest_spec hrep3⟩
  show (priqRbAdd (evenPrio 4) s.1 s.2 2).bind _ = _
  rw [hadd1]
  show (priqRbAdd (evenPrio 4) mem1 pq1 3).bind _ = _
  rw [hadd2]
  show (priqRbRemove (evenPrio 4) mem2 pq2 0).bind _ = _
  rw [hrem]
  rfl

theorem first_oneLeft (mem : RbMem 4) :
    ∃ s, (rbPriq (evenPrio 4)).run (mem, emptyRb 4) [.add 0] = some s ∧ OneLeft 0 s := by
  have hkey := giveOrderKey_next mem (emptyRb 4) 0 (by decide)
  obtain ⟨mem1, pq1, hadd, hrep, hk, hn, -⟩ :=
    priqRbAdd_at (RbQueueRep.empty mem) (by decide) hkey List.Pairwise.nil (by decide)
    (by simp [emptyRb]) (A := []) (B := []) rfl (by simp) (by simp)
  refine ⟨(mem1, pq1), ?_, hrep, by simp [hk, emptyRb], hn⟩
  show (priqRbAdd (evenPrio 4) mem (emptyRb 4) 0).bind _ = _
  rw [hadd]
  rfl

theorem wrapOps_arrivals : arrivals wrapOps = [2, 3] := by
  unfold arrivals wrapOps
  rw [List.foldl_cons, List.foldl_append]
  show List.foldl arrive ((comeAndGo (2 ^ 32 - 2)).foldl arrive [0]) _ = _
  rw [comeAndGo_arrivals]
  rfl

theorem wrapOps_legal : LegalRun [] wrapOps := ⟨by decide, comeAndGo_legal (2 ^ 32 - 2) _ (by decide)⟩

/-- **Past the wrap of `next_order_key` the tree serves out of turn** (sched.c:521-535): of two threads of one
priority the third was added first, as the list finds, and the tree finds the fourth. -/
theorem rb_outOfTurn :
    LegalRun [] wrapOps ∧ first (evenPrio 4) (arrivals wrapOps) = some 2 ∧
      (∃ s, (dumbPriq (evenPrio 4)).run (initQueues [()] (anyLinks Unit 4)) wrapOps = some s ∧
        (dumbPriq (evenPrio 4)).best s = some (some 2)) ∧
      ∃ s, (rbPriq (evenPrio 4)).run (zeroMem 4, emptyRb 4) wrapOps = some s ∧
      (rbPriq (evenPrio 4)).best s = some (some 3) := by
  obtain ⟨s0, hs0, h0⟩ := first_oneLeft (zeroMem 4)
  obtain ⟨s1, hs1, h1⟩ := h0.rounds (2 ^ 32 - 2) (by decide)
  rw [zero_add] at h1
  obtain ⟨s2, hs2, h2⟩ := h1.wrap
  have hfirst : first (evenPrio 4) (arrivals wrapOps) = some 2 := by rw [wrapOps_arrivals]; decide
  refine ⟨wrapOps_legal, hfirst, hfirst ▸ dumb_best wrapOps_legal (anyLinks Unit 4), s2, ?_, h2⟩
  exact (Priq.run_append hs0 _).trans ((Priq.run_append hs1 _).trans hs2)

end Zephyr
