import Zephyr.Kernel.Queue
import Zephyr.Lib.Runs
/-!
# Queues under preemption

The items that were returned and then those in the list are one sequence (`QueueInv.order`): an insertion puts one item
somewhere in the second part, and a `k_queue_get` moves the border by one. An append that read the tail may find
it elsewhere, but everything that was over before is then still in front of it or has been returned (`QueueInv.place`).
What goes wrong is a tail that has been taken off the list and has a successor: the item is
linked behind it and is lost.
-/
namespace Zephyr

open LinkedList Function List

variable {s : QueueState} {q : List (Nat × Nat)} {c n : Nat}

/-! ## One section -/

section insert

variable {k : KQueue} {l r : List Nat} {prev : Option Nat} {data : Nat} {alloc : Bool}

@[simp] theorem sysSflistInsert_flags (mem : Nat → SfNode Nat) (list : Sflist Nat) (x : Nat) :
    ((sysSflistInsert mem list prev n).1 x).flags = (mem x).flags := by
  cases prev with
  | none => simp [sysSflistInsert, sysSflistPrepend]
  | some p =>
    simp only [sysSflistInsert, sysSflistAppend]
    split
    · split <;> simp
    · simp

/-- The list is cut where the node goes in: in front, behind `prev`, or at the end. -/
theorem sysSflistInsert_spec {mem : Nat → SfNode Nat} {list : Sflist Nat} (h : IsSflist mem list l) (hn : n ∉ l)
    (hprev : ∀ p ∈ prev, p ∈ l ∨ (mem p).next = none) :
    ∃ a b, l = a ++ b ∧ IsSflist (sysSflistInsert mem list prev n).1 (sysSflistInsert mem list prev n).2 (a ++ n :: b) ∧
      ∀ p ∈ prev, b = [] ∨ p ∈ a := by
  cases prev with
  | none => exact ⟨[], l, rfl, isSflist_prepend h hn, by simp⟩
  | some p =>
    simp only [sysSflistInsert]
    split
    · exact ⟨l, [], (append_nil l).symm, isSflist_append h hn, by simp⟩
    · rename_i hnext
      obtain ⟨a, b, rfl⟩ := append_of_mem ((hprev p rfl).resolve_right hnext)
      refine ⟨a ++ [p], b, by simp, ?_, by simp⟩
      simpa using isSflist_insertMiddle h hn hnext

end insert

/-! ## The invariant -/

/-- `q` are the nodes of the list, each with the call that inserted it. -/
structure QueueInv (s : QueueState) (q : List (Nat × Nat)) : Prop where
  list : IsSflist s.queue.mem s.queue.dataQ (q.map Prod.fst)
  item : ∀ e ∈ q, s.item e.1 = some e.2
  peek : ∀ e ∈ q, (s.reqs e.2).map Prod.snd = some (zQueueNodePeek s.queue e.1)
  value : ∀ e ∈ s.returned, (s.reqs e.1).map Prod.snd = some e.2
  books : s.inserted.Perm (s.returned.map Prod.fst ++ q.map Prod.snd)
  nodup : s.inserted.Nodup
  known : ∀ c ∈ s.inserted, s.reqs c ≠ none ∧ s.calls c = none
  args : ∀ c, ∀ i ∈ s.calls c, (s.reqs c).map Prod.snd = some i.data
  born : ∀ n, ∀ c ∈ s.item n, s.reqs c ≠ none
  inj : ∀ n m, ∀ c ∈ s.item n, c ∈ s.item m → n = m
  own : ∀ c, ∀ i ∈ s.calls c, ∀ n, s.item n = some c ↔ i.alloc = false ∧ n = i.data
  before : ∀ c, ∀ d ∈ s.before c, d ∈ s.inserted
  order : (s.returned.map Prod.fst ++ q.map Prod.snd).Pairwise fun a b => b ∉ s.before a
  place : ∀ c, ∀ i ∈ s.calls c, ∀ l e r, q = l ++ e :: r → e.2 ∈ s.before c → ∃ p ∈ i.prev, p ∈ (e :: r).map Prod.fst

namespace QueueInv

/-- An item that is found in a list in which one was put is found in the list before. -/
theorem split_insert {X Y l r : List (Nat × Nat)} {a e : Nat × Nat} (hq : X ++ a :: Y = l ++ e :: r) (hne : e ≠ a) :
    ∃ l' r', X ++ Y = l' ++ e :: r' ∧ r' ⊆ r := by
  rcases append_eq_append_iff.1 hq with ⟨m, rfl, hm⟩ | ⟨m, rfl, hm⟩
  · cases m with
    | nil => exact absurd (List.cons.inj hm).1.symm hne
    | cons b m =>
      obtain ⟨rfl, rfl⟩ := List.cons.inj hm
      exact ⟨X ++ m, r, by simp, fun _ => id⟩
  · cases m with
    | nil => exact absurd (List.cons.inj hm).1 hne
    | cons b m =>
      obtain ⟨rfl, rfl⟩ := List.cons.inj hm
      exact ⟨l, m ++ Y, by simp, by simp [subset_def]; tauto⟩

variable (h : QueueInv s q)
include h

theorem inserted_iff : c ∈ s.inserted ↔ s.isReturned c ∨ c ∈ q.map Prod.snd := by
  rw [h.books.mem_iff, mem_append]
  exact Iff.rfl

theorem not_returned {e : Nat × Nat} (he : e ∈ q) : ¬ s.isReturned e.2 := fun hr =>
  (nodup_append.1 (h.books.nodup_iff.1 h.nodup)).2.2 _ hr _ (mem_map_of_mem he) rfl

theorem not_mem_of_free (hn : s.Free n) : n ∉ q.map Prod.fst := by
  intro hm
  obtain ⟨e, he, rfl⟩ := mem_map.1 hm
  exact h.not_returned he (hn e.2 (h.item e he))

/-- What belongs to a call under way is not in the list. -/
theorem not_mem_of_call {i : InsertCall} (hi : i ∈ s.calls c) (hn : s.item n = some c) : n ∉ q.map Prod.fst := by
  intro hm
  obtain ⟨e, he, rfl⟩ := mem_map.1 hm
  obtain rfl : e.2 = c := Option.some_inj.1 ((h.item e he).symm.trans hn)
  have hcalls := (h.known e.2 (h.inserted_iff.2 (.inr (mem_map_of_mem he)))).2
  rw [hcalls] at hi
  cases hi

theorem queued_iff : s.Queued n ↔ n ∈ q.map Prod.fst := by
  constructor
  · rintro ⟨c, hc, hins, hret⟩
    obtain ⟨e, he, rfl⟩ := mem_map.1 ((h.inserted_iff.1 hins).resolve_left hret)
    exact mem_map.2 ⟨e, he, h.inj e.1 n e.2 (h.item e he) hc⟩
  · intro hm
    obtain ⟨e, he, rfl⟩ := mem_map.1 hm
    exact ⟨e.2, h.item e he, h.inserted_iff.2 (.inr (mem_map_of_mem he)), h.not_returned he⟩

/-! ## Steps -/

theorem call {req : QueueReq} {data : Nat} (hc : s.reqs c = none) (hfree : req.alloc = false → s.Free data) :
    ∃ s', (QueueOp.call c req data).exec s = some s' ∧ QueueInv s' q := by
  have hne : ∀ {d}, s.reqs d ≠ none → d ≠ c := fun hd e => hd (e ▸ hc)
  have hins : ∀ d ∈ s.inserted, d ≠ c := fun d hd => hne (h.known d hd).1
  have hitem : ∀ m d, (if req.alloc then s.item else update s.item data (some c)) m = some d ↔
      req.alloc = false ∧ m = data ∧ d = c ∨ s.item m = some d ∧ (req.alloc = false → m ≠ data) := by
    intro m d
    cases req.alloc with
    | true => simp
    | false =>
      by_cases hm : m = data
      · subst hm
        simp [eq_comm]
      · simp [hm]
  refine ⟨_, rfl, ?_⟩
  constructor
  · exact h.list
  · intro e he
    exact (hitem _ _).2 (.inr ⟨h.item e he, fun ha hd => h.not_mem_of_free (hfree ha) (hd ▸ mem_map_of_mem he)⟩)
  · intro e he
    simp only [update_of_ne (hins e.2 (h.inserted_iff.2 (.inr (mem_map_of_mem he))))]
    exact h.peek e he
  · intro e he
    simp only [update_of_ne (hins e.1 (h.inserted_iff.2 (.inl (mem_map_of_mem he))))]
    exact h.value e he
  · exact h.books
  · exact h.nodup
  · intro d hd
    simp only [update_of_ne (hins d hd)]
    exact h.known d hd
  · intro d i hi
    by_cases hd : d = c
    · subst hd
      obtain rfl : _ = i := by simpa using hi
      simp
    · simp only [update_of_ne hd] at hi ⊢
      exact h.args d i hi
  · intro m d hd
    rcases (hitem m d).1 hd with ⟨-, -, rfl⟩ | ⟨hd, -⟩
    · simp
    · simp only [update_of_ne (hne (h.born m d hd))]
      exact h.born m d hd
  · intro m m' d hd hd'
    rcases (hitem m d).1 hd with ⟨-, rfl, rfl⟩ | ⟨hm, -⟩ <;> rcases (hitem m' d).1 hd' with ⟨-, hm', hdc⟩ | ⟨hm', -⟩
    · exact hm'.symm
    · exact absurd rfl (hne (h.born m' d hm'))
    · exact absurd hdc (hne (h.born m d hm))
    · exact h.inj m m' d hm hm'
  · intro d i hi m
    rw [hitem]
    by_cases hd : d = c
    · subst hd
      obtain rfl : _ = i := by simpa using hi
      have hm : s.item m ≠ some d := fun hm => hne (h.born m d hm) rfl
      simp [hm]
    · simp only [update_of_ne hd] at hi
      rw [← h.own d i hi m]
      refine ⟨fun hor => (hor.resolve_left fun hor => hd hor.2.2).1, fun hm => .inr ⟨hm, fun ha => ?_⟩⟩
      rintro rfl
      have hret := (h.known d (h.inserted_iff.2 (.inl (hfree ha d hm)))).2
      rw [hret] at hi
      cases hi
  · intro d x hx
    by_cases hd : d = c
    · subst hd
      simp only [update_self] at hx
      split at hx
      · exact mem_of_mem_filter hx
      · cases hx
    · simp only [update_of_ne hd] at hx
      exact h.before d x hx
  · refine h.order.imp_of_mem fun {a b} ha _ hab => ?_
    simp only [update_of_ne (hins a (h.books.mem_iff.2 ha))]
    exact hab
  · intro d i hi l e r hq he
    by_cases hd : d = c
    · -- the tail is at the end of the list
      subst hd
      obtain rfl : _ = i := by simpa using hi
      simp only [update_self] at he ⊢
      split at he
      · rename_i happ
        have hlast := h.list.tail
        rw [hq, map_append, map_cons, List.getLast?_append_cons] at hlast
        rw [if_pos happ, hlast]
        exact ⟨_, List.getLast?_eq_some_getLast (by simp), getLast_mem (by simp)⟩
      · cases he
    · simp only [update_of_ne hd] at hi he
      exact h.place d i hi l e r hq he

/-- `z_thread_malloc` has no memory. -/
theorem drop : QueueInv { s with calls := update s.calls c none } q := by
  have hcalls : ∀ d, ∀ i ∈ update s.calls c none d, i ∈ s.calls d := by
    intro d i hi
    by_cases hd : d = c
    · subst hd
      simp at hi
    · rwa [update_of_ne hd] at hi
  refine { h with known := fun d hd => ⟨(h.known d hd).1, ?_⟩, args := ?_, own := ?_, place := ?_ }
  · by_cases hdc : d = c
    · subst hdc
      exact update_self ..
    · simp only [update_of_ne hdc]
      exact (h.known d hd).2
  · exact fun d i hi => h.args d i (hcalls d i hi)
  · exact fun d i hi => h.own d i (hcalls d i hi)
  · exact fun d i hi => h.place d i (hcalls d i hi)

/-- The item of call `c` goes in the list as node `n`. -/
theorem insert {i : InsertCall} (hi : i ∈ s.calls c) {k : KQueue} {X Y : List (Nat × Nat)} (hq : q = X ++ Y)
    (hn : n ∉ q.map Prod.fst) (hown : s.item n = some c ∨ i.alloc = true ∧ s.Free n)
    (hlist : IsSflist k.mem k.dataQ ((X ++ (n, c) :: Y).map Prod.fst)) (hpeek : zQueueNodePeek k n = i.data)
    (hother : ∀ e ∈ q, zQueueNodePeek k e.1 = zQueueNodePeek s.queue e.1)
    (hcut : ∀ p ∈ i.prev, Y = [] ∨ p ∈ X.map Prod.fst) :
    QueueInv
      { s with
        queue := k
        calls := update s.calls c none
        item := update s.item n (some c)
        inserted := s.inserted ++ [c] } (X ++ (n, c) :: Y) := by
  have hdrop := h.drop (c := c)
  have hcins : c ∉ s.inserted := fun hm => by
    have hnone := (h.known c hm).2
    rw [hnone] at hi
    cases hi
  have hreq : s.reqs c ≠ none := fun e => by
    have := h.args c i hi
    simp [e] at this
  have hmem : ∀ {e}, e ∈ X ++ (n, c) :: Y → e = (n, c) ∨ e ∈ q := fun {e} he => by
    rw [hq]
    simpa [or_left_comm] using he
  have hne : ∀ {e}, e ∈ q → e.1 ≠ n := fun he hen => hn (hen ▸ mem_map_of_mem he)
  have hcalls : ∀ d, ∀ i' ∈ update s.calls c none d, d ≠ c ∧ i' ∈ s.calls d := by
    intro d i' hi'
    by_cases hd : d = c
    · subst hd
      simp at hi'
    · exact ⟨hd, by rwa [update_of_ne hd] at hi'⟩
  -- no call but `c` has a node to itself that `c` uses
  have hnone : ∀ d, d ≠ c → ∀ i' ∈ s.calls d, s.item n ≠ some d := by
    intro d hd i' hi' he
    rcases hown with hown | ⟨-, hfree⟩
    · exact hd (Option.some_inj.1 (he.symm.trans hown))
    · have hret := (h.known d (h.inserted_iff.2 (.inl (hfree d he)))).2
      rw [hret] at hi'
      cases hi'
  have hfirst : ∀ m, s.item m = some c → m = n := by
    intro m hm
    rcases hown with hown | ⟨halloc, -⟩
    · exact h.inj m n c hm hown
    · have hno := ((h.own c i hi m).1 hm).1
      rw [halloc] at hno
      cases hno
  constructor
  · exact hlist
  · intro e he
    rcases hmem he with rfl | he
    · exact update_self ..
    · simp only [update_of_ne (hne he)]
      exact h.item e he
  · intro e he
    rcases hmem he with rfl | he
    · simp only [hpeek]
      exact h.args c i hi
    · simp only [hother e he]
      exact h.peek e he
  · exact h.value
  · have hbooks := h.books
    rw [hq, map_append, ← append_assoc] at hbooks
    rw [map_append, ← append_assoc]
    exact (hbooks.append_right [c]).trans ((perm_append_singleton c _).trans perm_middle.symm)
  · exact nodup_append.2 ⟨h.nodup, nodup_singleton c, fun a ha b hb e => hcins (mem_singleton.1 hb ▸ e ▸ ha)⟩
  · intro d hd
    rcases mem_append.1 hd with hd | hd
    · exact hdrop.known d hd
    · rw [mem_singleton.1 hd]
      exact ⟨hreq, update_self ..⟩
  · exact hdrop.args
  · intro m d hd
    by_cases hm : m = n
    · subst hm
      obtain rfl : c = d := by simpa using hd
      exact hreq
    · exact h.born m d (by simpa [hm] using hd)
  · intro m m' d hd hd'
    by_cases hm : m = n <;> by_cases hm' : m' = n
    · rw [hm, hm']
    · subst hm
      obtain rfl : c = d := by simpa using hd
      exact (hfirst m' (by simpa [hm'] using hd')).symm
    · subst hm'
      obtain rfl : c = d := by simpa using hd'
      exact hfirst m (by simpa [hm] using hd)
    · exact h.inj m m' d (by simpa [hm] using hd) (by simpa [hm'] using hd')
  · intro d i' hi' m
    obtain ⟨hd, hj⟩ := hcalls d i' hi'
    rw [← h.own d i' hj m]
    by_cases hm : m = n
    · subst hm
      simp [Ne.symm hd, hnone d hd i' hj]
    · simp [hm]
  · exact fun d x hx => mem_append_left _ (h.before d x hx)
  · have horder := h.order
    rw [hq, map_append, ← append_assoc, pairwise_append] at horder
    rw [map_append, ← append_assoc, map_cons, pairwise_append, pairwise_cons]
    refine ⟨horder.1, ⟨?_, horder.2.1⟩, fun a ha b hb => ?_⟩
    · intro y hy hover
      obtain ⟨e, he, rfl⟩ := mem_map.1 hy
      obtain ⟨l, r, rfl⟩ := append_of_mem he
      obtain ⟨p, hp, hpr⟩ := h.place c i hi (X ++ l) e r (by rw [hq, append_assoc]) hover
      have hnd := h.list.nodup
      rw [hq, map_append, nodup_append] at hnd
      refine hnd.2.2 p ((hcut p hp).resolve_left (by simp)) p ?_ rfl
      rw [map_append]
      exact mem_append_right _ hpr
    · rcases mem_cons.1 hb with rfl | hb
      · exact fun hover => hcins (h.before a b hover)
      · exact horder.2.2 a ha b hb
  · intro d i' hi' l e r hsplit he
    obtain ⟨-, hi'⟩ := hcalls d i' hi'
    have hec : e ≠ (n, c) := by
      rintro rfl
      exact hcins (h.before d c he)
    obtain ⟨l', r', hq', hr'⟩ := split_insert hsplit hec
    obtain ⟨p, hp, hpr⟩ := h.place d i' hi' l' e r' (hq.trans hq') he
    exact ⟨p, hp, map_subset _ (cons_subset_cons e hr') hpr⟩

theorem lock {anode : Option Nat} (hlegal : (QueueOp.lock c anode).Legal s) (hfresh : (QueueOp.lock c anode).Fresh s) :
    ∃ s' q', (QueueOp.lock c anode).exec s = some s' ∧ QueueInv s' q' := by
  obtain ⟨i, hi, hanode⟩ := hlegal
  have hcall : s.calls c = some i := hi
  cases hnode : (if i.alloc then anode else some i.data) with
  | none =>
    exact ⟨{ s with calls := update s.calls c none }, q, by simp [QueueOp.exec, hcall, queueInsert, hnode], h.drop⟩
  | some n =>
    have hown : s.item n = some c ∨ i.alloc = true ∧ s.Free n := by
      cases halloc : i.alloc with
      | false =>
        refine .inl ((h.own c i hi n).2 ⟨halloc, ?_⟩)
        simpa [halloc, eq_comm] using hnode
      | true =>
        refine .inr ⟨rfl, hanode halloc n ?_⟩
        simpa [halloc] using hnode
    have hn : n ∉ q.map Prod.fst := hown.elim (h.not_mem_of_call hi) fun hown => h.not_mem_of_free hown.2
    have hne : ∀ e ∈ q, e.1 ≠ n := fun e he hen => hn (hen ▸ mem_map_of_mem he)
    have hinit : IsSflist (sysSfnodeInit s.queue.mem n (if i.alloc then 1 else 0)) s.queue.dataQ (q.map Prod.fst) :=
      h.list.congr fun x hx => update_of_ne (ne_of_mem_of_not_mem hx hn) _ _
    have hprev : ∀ p ∈ i.prev, p ∈ q.map Prod.fst ∨
      (sysSfnodeInit s.queue.mem n (if i.alloc then 1 else 0) p).next = none := by
      intro p hp
      by_cases hpn : p = n
      · subst hpn
        exact .inr (by simp [sysSfnodeInit])
      · rcases hfresh i hi p hp with hq | hnext | ⟨halloc, rfl⟩
        · exact .inl (h.queued_iff.1 hq)
        · exact .inr (by simpa [sysSfnodeInit, hpn] using hnext)
        · exact absurd (by simpa [halloc] using hnode) hpn
    obtain ⟨a, b, hab, hlist, hcut⟩ := sysSflistInsert_spec hinit hn hprev
    obtain ⟨X, Y, hq, rfl, rfl⟩ := map_eq_append_iff.1 hab
    refine ⟨_, X ++ (n, c) :: Y, by simp [QueueOp.exec, hcall, queueInsert, hnode]; rfl,
      h.insert hi hq hn hown ?_ ?_ ?_ ?_⟩
    · simpa using hlist
    · cases halloc : i.alloc with
      | false =>
        obtain rfl : i.data = n := by simpa [halloc] using hnode
        simp [zQueueNodePeek, sysSfnodeInit]
      | true => simp [zQueueNodePeek, sysSfnodeInit]
    · intro e he
      have hen := hne e he
      cases i.alloc <;> simp [zQueueNodePeek, sysSfnodeInit, hen]
    · simpa using hcut

theorem get : ∃ s' q', QueueOp.get.exec s = some s' ∧ QueueInv s' q' := by
  cases q with
  | nil =>
    have hhead : s.queue.dataQ.head = none := IsList.head_eq h.list
    refine ⟨s, [], ?_, h⟩
    simp [QueueOp.exec, queueGet, hhead]
  | cons e q =>
    obtain ⟨hhead, hlist⟩ := isSflist_getNotEmpty h.list
    have hitem := h.item e (by simp)
    have hmove : ∀ x : List Nat, x ++ (e :: q).map Prod.snd = x ++ [e.2] ++ q.map Prod.snd := fun x => by simp
    have hbooks := h.books
    have horder := h.order
    rw [hmove] at hbooks horder
    refine ⟨{ s with queue.dataQ := sysSflistGetNotEmpty s.queue.mem s.queue.dataQ e.1,
                     returned := s.returned ++ [(e.2, zQueueNodePeek s.queue e.1)] },
      q, by simp [QueueOp.exec, queueGet, hhead, hitem], ?_⟩
    constructor
    · exact hlist
    · exact fun x hx => h.item x (by simp [hx])
    · exact fun x hx => h.peek x (by simp [hx])
    · intro x hx
      rcases mem_append.1 hx with hx | hx
      · exact h.value x hx
      · rw [mem_singleton.1 hx]
        exact h.peek e (by simp)
    · simpa using hbooks
    · exact h.nodup
    · exact h.known
    · exact h.args
    · exact h.born
    · exact h.inj
    · exact h.own
    · exact h.before
    · simpa using horder
    · intro d i hi l x r hq hx
      exact h.place d i hi (e :: l) x r (by rw [hq]; rfl) hx

theorem write {node : SfNode Nat} {data : Nat} (hn : s.Free n) :
    ∃ s', (QueueOp.write n node data).exec s = some s' ∧ QueueInv s' q := by
  have hne : ∀ e ∈ q, e.1 ≠ n := fun e he hen => h.not_mem_of_free hn (hen ▸ mem_map_of_mem he)
  refine ⟨_, rfl, ?_⟩
  refine { h with list := h.list.congr fun x hx => ?_, peek := fun e he => ?_ }
  · obtain ⟨e, he, rfl⟩ := mem_map.1 hx
    exact update_of_ne (hne e he) _ _
  · simp only [zQueueNodePeek, update_of_ne (hne e he)]
    exact h.peek e he

theorem exec (op : QueueOp) (hlegal : op.Legal s) (hfresh : op.Fresh s) :
    ∃ s' q', op.exec s = some s' ∧ QueueInv s' q' := by
  cases op with
  | call c req data =>
    obtain ⟨s', hs', h'⟩ := h.call hlegal.1 hlegal.2
    exact ⟨s', q, hs', h'⟩
  | lock c anode => exact h.lock hlegal hfresh
  | get => exact h.get
  | write n node data =>
    obtain ⟨s', hs', h'⟩ := h.write hlegal
    exact ⟨s', q, hs', h'⟩

end QueueInv

/-! ## Runs -/

/-- What a queue promises, in terms of what its callers see. -/
structure FifoOk (s : QueueState) : Prop where
  once : (s.returned.map Prod.fst).Nodup
  value : ∀ e ∈ s.returned, e.1 ∈ s.inserted ∧ (s.reqs e.1).map Prod.snd = some e.2
  /-- from `head` to `tail` there is every item that was not returned -/
  reach : ∃ nodes, IsSflist s.queue.mem s.queue.dataQ nodes ∧ ∀ c ∈ s.inserted, ¬ s.isReturned c →
    ∃ n ∈ nodes, s.item n = some c
  /-- of two appends one after the other the first is returned first -/
  order : s.returned.Pairwise fun a b => b.1 ∉ s.before a.1
  first : ∀ e ∈ s.returned, ∀ c ∈ s.before e.1, s.isReturned c

theorem QueueInv.fifoOk (h : QueueInv s q) : FifoOk s := by
  have hnd := h.books.nodup_iff.1 h.nodup
  have horder := pairwise_append.1 h.order
  constructor
  · exact (nodup_append.1 hnd).1
  · exact fun e he => ⟨h.inserted_iff.2 (.inl (mem_map_of_mem he)), h.value e he⟩
  · refine ⟨_, h.list, fun c hc hret => ?_⟩
    obtain ⟨e, he, rfl⟩ := mem_map.1 ((h.inserted_iff.1 hc).resolve_left hret)
    exact ⟨e.1, mem_map_of_mem he, h.item e he⟩
  · exact pairwise_map.1 horder.1
  · intro e he c hc
    refine (h.inserted_iff.1 (h.before e.1 c hc)).resolve_right fun hq => ?_
    exact horder.2.2 e.1 (mem_map_of_mem he) c hq hc

theorem initQueue_inv (mem : Nat → SfNode Nat) (anodeData : Nat → Nat) : QueueInv (initQueue mem anodeData) [] where
  list := IsList.nil
  item := by simp
  peek := by simp
  value := by simp [initQueue]
  books := .refl []
  nodup := nodup_nil
  known := by simp [initQueue]
  args := by simp [initQueue]
  born := by simp [initQueue]
  inj := by simp [initQueue]
  own := by simp [initQueue]
  before := by simp [initQueue]
  order := List.Pairwise.nil
  place := by simp [initQueue]

/-- **A queue is first in, first out** in every interleaving in which no append uses a tail that was taken off with
a successor. -/
theorem queue_fifo (mem : Nat → SfNode Nat) (anodeData : Nat → Nat) (ops : List QueueOp)
    (hops : Runs.Along QueueOp.exec (fun s op => op.Legal s ∧ op.Fresh s) (initQueue mem anodeData) ops) :
    ∃ s, Runs.run QueueOp.exec (initQueue mem anodeData) ops = some s ∧ FifoOk s := by
  obtain ⟨s, hs, q, h⟩ := Runs.run_total (I := fun s => ∃ q, QueueInv s q) (fun s op ⟨q, h⟩ hop => by
      obtain ⟨s', q', hs', h'⟩ := h.exec op hop.1 hop.2
      exact ⟨s', hs', q', h'⟩)
    ⟨[], initQueue_inv mem anodeData⟩ hops
  exact ⟨s, hs, h.fifoOk⟩

/-- Two appends read the same tail; between them it is returned. -/
theorem queue_fifo_sameTail : ∃ s, Runs.run QueueOp.exec (initQueue (fun _ => ⟨none, 0⟩) fun _ => 0)
      [.call 0 .append 10, .lock 0 none, .call 1 .append 11, .call 2 .allocAppend 12, .get, .lock 2 (some 20),
        .lock 1 none, .get, .get] = some s ∧
    FifoOk s ∧ s.returned = [(0, 10), (2, 12), (1, 11)] := by
  obtain ⟨s, hs, hok⟩ := queue_fifo (fun _ => ⟨none, 0⟩) (fun _ => 0)
    [.call 0 .append 10, .lock 0 none, .call 1 .append 11, .call 2 .allocAppend 12, .get, .lock 2 (some 20),
      .lock 1 none, .get, .get]
    (by decide +kernel)
  have hret : (Runs.run QueueOp.exec (initQueue (fun _ => ⟨none, 0⟩) fun _ => 0)
      [.call 0 .append 10, .lock 0 none, .call 1 .append 11, .call 2 .allocAppend 12, .get, .lock 2 (some 20),
        .lock 1 none, .get, .get]).map
        QueueState.returned = some [(0, 10), (2, 12), (1, 11)] := by decide +kernel
  rw [hs] at hret
  exact ⟨s, hs, hok, Option.some_inj.1 hret⟩

/-- An append reads the tail 10; 12 is appended and 10 is returned, and then 11 is put behind 10. -/
def staleOps : List QueueOp :=
  [.call 0 .append 10, .lock 0 none, .call 1 .append 11, .call 2 .append 12, .lock 2 none, .get, .lock 1 none]

theorem stale_tail_loses : Runs.Along QueueOp.exec (fun s op => op.Legal s)
    (initQueue (fun _ => ⟨none, 0⟩) fun _ => 0) staleOps ∧
    ∃ s, Runs.run QueueOp.exec (initQueue (fun _ => ⟨none, 0⟩) fun _ => 0) staleOps = some s ∧ ¬ FifoOk s := by
  refine ⟨by decide +kernel, Runs.exists_end (P := fun s => s.queue.dataQ.head = some 12 ∧
    (s.queue.mem 12).next = none ∧ s.item 12 = some 2 ∧
    s.inserted = [0, 2, 1] ∧ s.returned = [(0, 10)]) (by decide +kernel) ?_⟩
  rintro s - ⟨hhead, hnext, hitem, hins, hret⟩ hok
  obtain ⟨nodes, hlist, hall⟩ := hok.reach
  -- from the head only node 12 is met
  have hnodes : nodes = [12] := hlist.seg.unique (show Seg _ _ _ _ from ⟨hhead, hnext⟩)
  obtain ⟨n, hn, hn1⟩ := hall 1 (by simp [hins]) (by simp [QueueState.isReturned, hret])
  rw [hnodes, mem_singleton] at hn
  rw [hn, hitem] at hn1
  cases hn1

end Zephyr
