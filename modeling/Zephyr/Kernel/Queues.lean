import Zephyr.Kernel.Priq
/-!
# The queues of the scheduler (kernel/sched.c:15-38)

The run queue and every wait queue are of one of the kinds of `Zephyr.Kernel.Priq`, and a thread has one
node for all of them. `Queues` is what sched.c sees of them: `_priq_run_*` on the queue `runq` and
`_priq_wait_*` on a queue `waitq w`. `Queues.Lawful` is what the scheduler's proofs use of them.
-/
namespace Zephyr

open Ring RedBlack StableQueue Function List

inductive QueueId (W : Type) where
  | runq
  | waitq (w : W)
deriving DecidableEq

variable {N : Nat} {W : Type} [DecidableEq W]

/-- The queue operations, on a memory `σ` that holds all queues; `base.prio` is read only. -/
structure Queues (N : Nat) (W σ : Type) where
  add : (Fin N → ℤ) → σ → QueueId W → Fin N → Option σ
  remove : (Fin N → ℤ) → σ → QueueId W → Fin N → Option σ
  best : σ → QueueId W → Option (Option (Fin N))

/-- What a choice of queues promises. Each queue keeps a list of its threads; whether a newcomer gets
behind everyone of its priority can depend on the keys in memory (`Fresh`), and so can whether a queue
takes a new priority of one of its threads (`RekeyOk`). -/
structure Queues.Lawful {σ : Type} (Q : Queues N W σ) where
  Rep : (Fin N → ℤ) → σ → (QueueId W → List (Fin N)) → Prop
  Valid : ℤ → Prop
  Fresh : (Fin N → ℤ) → σ → QueueId W → List (Fin N) → Fin N → Prop
  RekeyOk : (Fin N → ℤ) → List (Fin N) → Fin N → ℤ → Prop
  nodup : ∀ {prio s L}, Rep prio s L → ∀ i, (L i).Nodup
  disj : ∀ {prio s L}, Rep prio s L → ∀ {i j x}, i ≠ j → x ∈ L i → x ∉ L j
  add_spec : ∀ {prio s L x}, Rep prio s L → (∀ j, x ∉ L j) → Valid (prio x) → ∀ i,
    ∃ s' l', Q.add prio s i x = some s' ∧ Rep prio s' (update L i l') ∧ l'.Perm (x :: L i) ∧
      (Fresh prio s i (L i) x → l' = enq prio x (L i))
  remove_spec : ∀ {prio s L i x}, Rep prio s L → x ∈ L i →
    ∃ s', Q.remove prio s i x = some s' ∧ Rep prio s' (update L i ((L i).erase x)) ∧
      ∀ j y, j ≠ i → Fresh prio s j (L j) y → Fresh prio s' j (L j) y
  best_spec : ∀ {prio s L}, Rep prio s L → ∀ i, Q.best s i = some (L i).head?
  rekey_spec : ∀ {prio s L x k}, Rep prio s L → x ∉ L .runq →
    (∀ w, x ∈ L (.waitq w) → RekeyOk prio (L (.waitq w)) x k) →
    Rep (update prio x k) s L
  rekeyOk_of_keepsPlace : ∀ {prio l x k}, KeepsPlace prio l x k → RekeyOk prio l x k

/-! ## Lists everywhere -/

def dumbQueues (N : Nat) (W : Type) [DecidableEq W] : Queues N W (Links (QNode (QueueId W) N)) where
  add prio m i thread := priqDumbAdd prio m (.head i) thread
  remove _ m _ thread := some (priqDumbRemove m thread)
  best m i := priqDumbBest m (.head i)

variable {ι : Type} {m : Links (QNode ι N)} {prio : Fin N → ℤ} {L : QueueId W → List (Fin N)}

theorem DumbRep.disj' {L : ι → List (Fin N)} (h : DumbRep m L) {i j : ι} {x : Fin N} (hij : i ≠ j)
    (hx : x ∈ L i) : x ∉ L j := fun hj =>
  h.disj i j hij (.thread x) (mem_cons_of_mem _ (mem_map_of_mem hx)) (mem_cons_of_mem _ (mem_map_of_mem hj))

def dumbLawful (N : Nat) (W : Type) [DecidableEq W] : (dumbQueues N W).Lawful where
  Rep _ m L := DumbRep m L
  Valid _ := True
  Fresh _ _ _ _ _ := True
  RekeyOk _ _ _ _ := True
  nodup h i := h.nodup i
  disj h := h.disj'
  add_spec {prio m L x} h hx _ i := by
    obtain ⟨m', hadd, hrep⟩ := priqDumbAdd_spec prio (i := i) h hx
    exact ⟨m', _, hadd, hrep, perm_enq, fun _ => rfl⟩
  remove_spec h hx := ⟨_, rfl, priqDumbRemove_spec h hx, fun _ _ _ _ => trivial⟩
  best_spec h i := priqDumbBest_spec h i
  rekey_spec h _ _ := h
  rekeyOk_of_keepsPlace _ := trivial

instance (k : ℤ) : Decidable ((dumbLawful N W).Valid k) := inferInstanceAs (Decidable True)

/-! ## Trees everywhere -/

def scalableQueues (N : Nat) (W : Type) [DecidableEq W] : Queues N W (RbMem N × (QueueId W → PriqRb N)) where
  add prio s i thread := (priqRbAdd prio s.1 (s.2 i) thread).map fun r => (r.1, update s.2 i r.2)
  remove prio s i thread := (priqRbRemove prio s.1 (s.2 i) thread).map fun r => (r.1, update s.2 i r.2)
  best s i := priqRbBest s.1 (s.2 i)

theorem RbQueueRep.congr {mem mem' : RbMem N} {pq : PriqRb N} {l : List (Fin N)} (h : RbQueueRep prio mem pq l)
    (hsame : ∀ y ∈ l, mem'.nodes y = mem.nodes y ∧ mem'.orderKey y = mem.orderKey y) : RbQueueRep prio mem' pq l := by
  obtain ⟨T, hT, rfl⟩ := h.rep
  refine ⟨⟨T, ⟨hT.holds.congr fun y hy => (hsame y hy).1, hT.root, hT.range, hT.nodup⟩, rfl⟩, ?_, h.next_lt,
    fun y hy => ?_⟩
  · refine h.sorted.imp_of_mem fun {a b} ha hb hab => ?_
    rw [priqRbLessthan_iff] at hab ⊢
    rwa [(hsame a ha).2, (hsame b hb).2]
  · rw [(hsame y hy).2]
    exact h.keys y hy

theorem RbQueueRep.rekey {mem : RbMem N} {pq : PriqRb N} {l : List (Fin N)} {x : Fin N} {k : ℤ}
    (h : RbQueueRep prio mem pq l) (hk : x ∈ l → KeepsPlace prio l x k) : RbQueueRep (update prio x k) mem pq l := by
  refine ⟨h.rep, (h.nodup.and h.sorted).imp_of_mem fun {a b} ha hb hab => ?_, h.next_lt, h.keys⟩
  obtain ⟨hne, hab⟩ := hab
  rw [priqRbLessthan_iff] at hab ⊢
  by_cases hax : a = x
  · subst hax
    have := hk ha b hb (Ne.symm hne)
    rw [update_self, update_of_ne (Ne.symm hne)]
    omega
  · by_cases hbx : b = x
    · subst hbx
      have := hk hb a ha hax
      rw [update_self, update_of_ne hax]
      omega
    · rwa [update_of_ne hax, update_of_ne hbx]

/-- Every queue is a tree in the one memory, and no thread is in two. -/
structure ScalableRep (prio : Fin N → ℤ) (s : RbMem N × (QueueId W → PriqRb N))
    (L : QueueId W → List (Fin N)) : Prop where
  tree : ∀ i, RbQueueRep prio s.1 (s.2 i) (L i)
  disj : ∀ {i j x}, i ≠ j → x ∈ L i → x ∉ L j

/-- One queue is changed, and with it only the nodes of its own threads. -/
theorem ScalableRep.update {s : RbMem N × (QueueId W → PriqRb N)}
    (h : ScalableRep prio s L) {i : QueueId W} {mem' : RbMem N} {pq' : PriqRb N} {l' : List (Fin N)}
    (hi : RbQueueRep prio mem' pq' l') (hl' : ∀ y ∈ l', ∀ j ≠ i, y ∉ L j)
    (hsame : ∀ j ≠ i, ∀ y ∈ L j, mem'.nodes y = s.1.nodes y ∧ mem'.orderKey y = s.1.orderKey y) :
    ScalableRep prio (mem', update s.2 i pq') (update L i l') where
  tree j := by
    by_cases hj : j = i
    · subst hj; simpa using hi
    · simpa [hj] using (h.tree j).congr (hsame j hj)
  disj {j k x} hjk hx := by
    by_cases hj : j = i
    · subst hj
      rw [update_self] at hx
      rw [update_of_ne (Ne.symm hjk)]
      exact hl' x hx k (Ne.symm hjk)
    · rw [update_of_ne hj] at hx
      by_cases hk : k = i
      · subst hk
        rw [update_self]
        exact fun hm => hl' x hm j hj hx
      · rw [update_of_ne hk]
        exact h.disj hjk hx

/-- There are as many keys as there can be threads. -/
def scalableLawful {N : Nat} (W : Type) [DecidableEq W] (hN : N ≤ 2 ^ 32) : (scalableQueues N W).Lawful where
  Rep := ScalableRep
  Valid _ := True
  Fresh prio s i l x := KeyFree prio s.1 (s.2 i) l x
  RekeyOk := KeepsPlace
  nodup h i := (h.tree i).nodup
  disj h := h.disj
  add_spec {prio s L x} h hx _ i := by
    have hlen : (L i).length + 1 ≤ N := by
      simpa using (nodup_cons.2 ⟨hx i, (h.tree i).nodup⟩).length_le_card
    obtain ⟨mem', pq', l', hadd, hrep, hperm, henq, hframe⟩ := priqRbAdd_spec (h.tree i) (hx i) (by omega)
    refine ⟨(mem', update s.2 i pq'), l', by simp [scalableQueues, hadd], h.update hrep (fun y hy j hj => ?_)
      (fun j hj y hy => ?_), hperm, henq⟩
    · rcases mem_cons.1 (hperm.mem_iff.1 hy) with rfl | hy
      · exact hx j
      · exact h.disj (Ne.symm hj) hy
    · refine hframe y fun hm => ?_
      rcases mem_cons.1 hm with rfl | hm
      · exact hx j hy
      · exact h.disj hj hy hm
  remove_spec {prio s L i x} h hx := by
    obtain ⟨mem', pq', hrem, hrep, hkey, -, hframe⟩ := priqRbRemove_spec (h.tree i) hx
    refine ⟨(mem', update s.2 i pq'), by simp [scalableQueues, hrem], h.update hrep (fun y hy j hj => ?_)
      (fun j hj y hy => ?_), fun j y hj hfree => ?_⟩
    · exact h.disj (Ne.symm hj) (mem_of_mem_erase hy)
    · exact ⟨hframe y (h.disj hj hy), by rw [hkey]⟩
    · simpa [KeyFree, hkey, hj] using hfree
  best_spec h i := priqRbBest_spec (h.tree i)
  rekey_spec {prio s L x k} h hrun hwait := ⟨fun i => (h.tree i).rekey fun hx => by
    cases i with
    | runq => exact absurd hx hrun
    | waitq w => exact hwait w hx, h.disj⟩
  rekeyOk_of_keepsPlace h := h

instance {hN : N ≤ 2 ^ 32} (k : ℤ) : Decidable ((scalableLawful W hN).Valid k) := inferInstanceAs (Decidable True)

/-! ## Lists by priority, and lists to wait in -/

def multiqQueues (N : Nat) (W : Type) [DecidableEq W] (highest : ℤ) : Queues N W (PriqMq (Fin 32 ⊕ W) N) where
  add prio s i thread := match i with
    | .runq => priqMqAdd prio Sum.inl highest s thread
    | .waitq w => (priqDumbAdd prio s.links (.head (.inr w)) thread).map fun m => { s with links := m }
  remove prio s i thread := match i with
    | .runq => priqMqRemove prio Sum.inl highest s thread
    | .waitq _ => some { s with links := priqDumbRemove s.links thread }
  best s i := match i with
    | .runq => priqMqBest Sum.inl s
    | .waitq w => priqDumbBest s.links (.head (.inr w))

section multiq

variable {prio : Fin N → ℤ} {highest : ℤ} {s : PriqMq (Fin 32 ⊕ W) N} {Lq : Fin 32 ⊕ W → List (Fin N)}
    {l : List (Fin N)} {x : Fin N}

theorem MqRep.wait (h : MqRep prio Sum.inl highest s Lq l) {w : W} {m : Links (QNode (Fin 32 ⊕ W) N)}
    {lw : List (Fin N)} (hm : DumbRep m (update Lq (.inr w) lw)) :
    MqRep prio Sum.inl highest { s with links := m } (update Lq (.inr w) lw) l := by
  refine ⟨hm, h.inj, h.ordered, h.range, fun b => ?_, fun b => ?_⟩
  · rw [update_of_ne (by simp)]; exact h.lists b
  · rw [update_of_ne (by simp)]; exact h.mask b

omit [DecidableEq W] in
theorem MqRep.rekey {k : ℤ} (h : MqRep prio Sum.inl highest s Lq l) (hx : x ∉ l) :
    MqRep (update prio x k) Sum.inl highest s Lq l := by
  have hsame : ∀ y ∈ l, update prio x k y = prio y := fun y hy => update_of_ne (by rintro rfl; exact hx hy) _ _
  refine ⟨h.rings, h.inj, ?_, fun y hy => ?_, fun b => ?_, h.mask⟩
  · refine h.ordered.imp_of_mem fun {a b} ha hb hab => ?_
    rwa [hsame a ha, hsame b hb]
  · rw [hsame y hy]; exact h.range y hy
  · rw [h.lists b]
    exact filter_congr fun y hy => by rw [hsame y hy]

/-- The queues by priority hold the run queue, the other lists the wait queues. -/
def MultiqRep (highest : ℤ) (prio : Fin N → ℤ) (s : PriqMq (Fin 32 ⊕ W) N) (L : QueueId W → List (Fin N)) : Prop :=
  ∃ Lq, MqRep prio Sum.inl highest s Lq (L .runq) ∧ ∀ w, Lq (.inr w) = L (.waitq w)

/-- The queue that a list head belongs to. -/
def queueOf : Fin 32 ⊕ W → QueueId W
  | .inl _ => .runq
  | .inr w => .waitq w

omit [DecidableEq W] in
theorem MqRep.mem_iff (h : MqRep prio Sum.inl highest s Lq (L .runq)) (hw : ∀ w, Lq (.inr w) = L (.waitq w))
    (i : QueueId W) : x ∈ L i ↔ ∃ c, queueOf c = i ∧ x ∈ Lq c := by
  constructor
  · intro hx
    cases i with
    | runq =>
      obtain ⟨b, hb⟩ := h.range x hx
      exact ⟨.inl b, rfl, by rw [h.lists]; simp [hx, hb]⟩
    | waitq w => exact ⟨.inr w, rfl, by rwa [hw]⟩
  · rintro ⟨c, rfl, hx⟩
    cases c with
    | inl b =>
      rw [h.lists] at hx
      exact mem_of_mem_filter hx
    | inr w => rwa [hw] at hx

omit [DecidableEq W] in
theorem MultiqRep.disj (h : MultiqRep highest prio s L) {i j : QueueId W} (hij : i ≠ j) (hx : x ∈ L i) : x ∉ L j := by
  obtain ⟨Lq, hmq, hw⟩ := h
  intro hj
  obtain ⟨c, rfl, hc⟩ := (hmq.mem_iff hw i).1 hx
  obtain ⟨d, rfl, hd⟩ := (hmq.mem_iff hw j).1 hj
  exact hmq.rings.disj' (fun e => hij (by rw [e])) hc hd

omit [DecidableEq W] in
/-- A thread is once in the list of its priority, and in no other. -/
theorem MqRep.nodup (h : MqRep prio Sum.inl highest s Lq l) : l.Nodup := by
  rw [nodup_iff_count_le_one]
  intro y
  by_cases hy : y ∈ l
  · obtain ⟨b, hb⟩ := h.range y hy
    have hone := nodup_iff_count_le_one.1 (h.rings.nodup (Sum.inl b)) y
    rwa [h.lists, count_filter (by simpa using hb)] at hone
  · rw [count_eq_zero_of_not_mem hy]; omega

theorem update_waitq (hw : ∀ w, Lq (.inr w) = L (.waitq w)) (w : W) (l' : List (Fin N)) (v : W) :
    update Lq (.inr w) l' (.inr v) = update L (.waitq w) l' (.waitq v) := by
  by_cases hv : v = w
  · subst hv; simp
  · rw [update_of_ne (by simpa using hv), update_of_ne (by simpa using hv), hw]

end multiq

def multiqLawful (N : Nat) (W : Type) [DecidableEq W] (highest : ℤ) : (multiqQueues N W highest).Lawful where
  Rep := MultiqRep highest
  Valid k := ∃ b : Fin 32, k = highest + b.val
  Fresh _ _ _ _ _ := True
  RekeyOk _ _ _ _ := True
  nodup {prio s L} h i := by
    obtain ⟨Lq, hmq, hw⟩ := h
    cases i with
    | runq => exact hmq.nodup
    | waitq w => rw [← hw]; exact hmq.rings.nodup _
  disj h := h.disj
  add_spec {prio s L x} h hx hvalid i := by
    obtain ⟨Lq, hmq, hw⟩ := h
    have hxq : ∀ c, x ∉ Lq c := fun c hc => hx (queueOf c) ((hmq.mem_iff hw _).2 ⟨c, rfl, hc⟩)
    cases i with
    | runq =>
      obtain ⟨b, hb⟩ := hvalid
      obtain ⟨s', hadd, hrep⟩ := priqMqAdd_spec hmq hxq hb
      exact ⟨s', _, hadd, ⟨_, by simpa using hrep, by simp [hw]⟩, perm_enq, fun _ => rfl⟩
    | waitq w =>
      obtain ⟨m', hadd, hrep⟩ := priqDumbAdd_spec prio (i := Sum.inr w) hmq.rings hxq
      refine ⟨{ s with links := m' }, enq prio x (L (.waitq w)), by simp [multiqQueues, hadd],
        ⟨_, by simpa using hmq.wait hrep, fun v => ?_⟩, perm_enq, fun _ => rfl⟩
      rw [hw, update_waitq hw]
  remove_spec {prio s L i x} h hx := by
    obtain ⟨Lq, hmq, hw⟩ := h
    cases i with
    | runq =>
      obtain ⟨b, hb⟩ := hmq.range x hx
      obtain ⟨s', hrem, hrep⟩ := priqMqRemove_spec hmq hx hb
      exact ⟨s', hrem, ⟨_, by simpa using hrep, by simp [hw]⟩, fun _ _ _ _ => trivial⟩
    | waitq w =>
      have hrep := priqDumbRemove_spec (i := Sum.inr w) hmq.rings (by rw [hw]; exact hx)
      refine ⟨_, rfl, ⟨_, by simpa using hmq.wait hrep, fun v => ?_⟩, fun _ _ _ _ => trivial⟩
      rw [hw, update_waitq hw]
  best_spec {prio s L} h i := by
    obtain ⟨Lq, hmq, hw⟩ := h
    cases i with
    | runq => exact priqMqBest_spec hmq
    | waitq w => rw [← hw]; exact priqDumbBest_spec hmq.rings _
  rekey_spec h hrun _ := by
    obtain ⟨Lq, hmq, hw⟩ := h
    exact ⟨Lq, hmq.rekey hrun, hw⟩
  rekeyOk_of_keepsPlace _ := trivial

/-! ## Walks over a wait queue (kernel/include/wait_q.h) -/

/-- `SYS_DLIST_FOR_EACH_CONTAINER` (dlist.h:155): the threads that the loop meets. -/
def dlistForEach {ι : Type} [DecidableEq ι] (m : Links (QNode ι N)) (pq : QNode ι N) :
    Nat → Option (QNode ι N) → Option (List (Fin N))
  | 0, _ => none
  | _ + 1, none => some []
  | fuel + 1, some (.thread t) => (dlistForEach m pq fuel (sysDlistPeekNext m pq (some (.thread t)))).map (t :: ·)
  | _ + 1, some (.head _) => none

/-- `_WAIT_Q_FOR_EACH` (wait_q.h:49, :68) -/
def dumbEach (m : Links (QNode (QueueId W) N)) (w : W) : Option (List (Fin N)) :=
  dlistForEach m (.head (.waitq w)) (N + 1) (sysDlistPeekHead m (.head (.waitq w)))

def scalableEach (s : RbMem N × (QueueId W → PriqRb N)) (w : W) : Option (List (Fin N)) :=
  rbForEach s.1.nodes (s.2 (.waitq w)).tree (N + 1)

def multiqEach (s : PriqMq (Fin 32 ⊕ W) N) (w : W) : Option (List (Fin N)) :=
  dlistForEach s.links (.head (.inr w)) (N + 1) (sysDlistPeekHead s.links (.head (.inr w)))

/-- The walk meets the threads of the queue. -/
def Queues.Lawful.Walks {σ : Type} {Q : Queues N W σ} (H : Q.Lawful) (each : σ → W → Option (List (Fin N))) : Prop :=
  ∀ prio s L, H.Rep prio s L → ∀ w, each s w = some (L (.waitq w))

theorem dlistForEach_spec [DecidableEq ι] {L : ι → List (Fin N)} (h : DumbRep m L) {i : ι}
    {A B : List (Fin N)} (hL : L i = A ++ B) {fuel : Nat} (hf : B.length < fuel) :
    dlistForEach m (.head i) fuel (B.head?.map QNode.thread) = some B := by
  induction B generalizing A fuel with
  | nil =>
    obtain ⟨fuel, rfl⟩ : ∃ k, fuel = k + 1 := ⟨fuel - 1, by simp at hf; omega⟩
    rfl
  | cons y B ih =>
    obtain ⟨fuel, rfl⟩ : ∃ k, fuel = k + 1 := ⟨fuel - 1, by simp at hf; omega⟩
    have hr : IsRing m (.head i) (A.map QNode.thread ++ QNode.thread y :: B.map QNode.thread) := by
      simpa [qnodes, hL] using h.ring i
    have hrest : dlistForEach m (.head i) fuel (B.head?.map QNode.thread) = some B :=
      ih (A := A ++ [y]) (by simp [hL]) (by simpa using hf)
    simp only [List.head?_cons, Option.map_some, dlistForEach]
    rw [sysDlistPeekNext_eq hr, List.head?_map, hrest, Option.map_some]

theorem dlistForEach_head [DecidableEq ι] {L : ι → List (Fin N)} (h : DumbRep m L) (i : ι) :
    dlistForEach m (.head i) (N + 1) (sysDlistPeekHead m (.head i)) = some (L i) := by
  have hlen : (L i).length ≤ N := by simpa using (h.nodup i).length_le_card
  rw [h.peekHead]
  exact dlistForEach_spec (A := []) h rfl (by omega)

theorem dumbEach_walks : (dumbLawful N W).Walks dumbEach := fun _ _ _ h w => dlistForEach_head h (.waitq w)

theorem multiqEach_walks {highest : ℤ} : (multiqLawful N W highest).Walks multiqEach := by
  rintro prio s L ⟨Lq, hmq, hw⟩ w
  rw [← hw]
  exact dlistForEach_head hmq.rings (.inr w)

theorem scalableEach_walks {hN : N ≤ 2 ^ 32} : (scalableLawful W hN).Walks scalableEach := by
  intro prio s L h w
  obtain ⟨T, hT, hL⟩ := (h.tree (.waitq w)).rep
  have hlen : (L (.waitq w)).length ≤ N := by simpa using (h.tree (.waitq w)).nodup.length_le_card
  rw [← hL] at hlen ⊢
  exact rbForEach_eq hT (by omega)

end Zephyr
