import Zephyr.Kernel.TimeoutRuns
/-!
# The order in which an announcement handles what expires

`_add_timeout` puts a timeout in front of those with the same deadline, and `handle_timeouts` builds its list of
the expired from the back: timeouts that are due together are handled in the order in which they were added
(`LatestFirst`, twice reversed). The list as a whole is reversed with them, and so an announcement that
spans several deadlines begins with the last.
-/
namespace Zephyr

open Ring DeltaQueue List

variable {N : Nat}

/-! ## When a timeout was added -/

/-- The call adds `i` to `_timeout_q`, or lets a timer do so that expires. -/
def Pending.Adds (P : Pending N) : Op N → Fin N → Bool
  | .add j _, i => i == j
  | .abort _, _ => false
  | .announce n h, i => (P i).any (fun p => p.1 ≤ p.2 + n) && (h i).rearms

/-- What is pending, the number of calls, and for each timeout the last call that added it. -/
def stamp (c : Pending N × Nat × (Fin N → Nat)) (op : Op N) : Pending N × Nat × (Fin N → Nat) :=
  (c.1.step op, c.2.1 + 1, fun i => if c.1.Adds op i then c.2.1 + 1 else c.2.2 i)

/-- The number of the call that added the timeout last, counted from 1. -/
def addedAt (ops : List (Op N)) : Fin N → Nat := (ops.foldl stamp (.empty, 0, fun _ => 0)).2.2

theorem stamps_eq (ops : List (Op N)) :
    ops.foldl stamp (.empty, 0, fun _ => 0) = (.ofOps ops, ops.length, addedAt ops) := by
  induction ops using List.reverseRecOn with
  | nil => rfl
  | append_singleton ops op ih =>
    rw [addedAt, Pending.ofOps, foldl_append, foldl_append, ih]
    simp [stamp, Pending.ofOps]

theorem addedAt_snoc (ops : List (Op N)) (op : Op N) (i : Fin N) :
    addedAt (ops ++ [op]) i = if (Pending.ofOps ops).Adds op i then ops.length + 1 else addedAt ops i := by
  rw [addedAt, foldl_append, stamps_eq]
  rfl

theorem addedAt_le (ops : List (Op N)) (i : Fin N) : addedAt ops i ≤ ops.length := by
  induction ops using List.reverseRecOn with
  | nil => exact Nat.zero_le _
  | append_singleton ops op ih =>
    rw [addedAt_snoc, length_append, length_singleton]
    split <;> omega

/-! ## The queue -/

/-- The queue after an announcement: at most one timeout has come back. -/
theorem LatestFirst.announce {P : Pending N} {s : TState N} {l : List (Fin N × ℤ)} (hk : Keeps P s l)
    {f g : Fin N → Nat} (hf : LatestFirst f l) {n : Nat} {h : Fin N → Handler} {k : Nat} (hk' : ∀ i, f i < k)
    (hg : ∀ i, g i = if P.Adds (.announce n h) i then k else f i) :
    LatestFirst g (rearmLast h (dueList n l) (advance n l).2) := by
  have hq := hk.quiet.rep
  have hdue := hk.mem_dueList n
  have hsep : ∀ i ∈ ids (advance (n : ℤ) l).2, ¬ P.Due n i := by
    intro i hi hd
    have := hq.nodup
    rw [ids_advance (n : ℤ) l, nodup_append] at this
    exact this.2.2 i (by simpa [dueList] using (hdue i).2 hd) i hi rfl
  have hadds : ∀ i, P.Adds (.announce n h) i = true ↔ P.Due n i ∧ (h i).rearms = true := by
    intro i
    simp only [Pending.Adds, Bool.and_eq_true, Pending.Due]
    cases P i <;> simp
  have hold : ∀ i ∈ ids (advance (n : ℤ) l).2, g i = f i := by
    intro i hi
    rw [hg, if_neg (by rw [hadds]; exact fun hd => hsep i hi hd.1)]
  have hrest : LatestFirst g (advance n l).2 := hf.advance hq.nonneg hq.nodup hold
  unfold rearmLast
  split
  · exact hrest
  · rename_i x hx
    have hxd := (hdue x).1 (mem_of_getLast? hx)
    unfold rearm
    split
    · rename_i p hp
      split
      · rename_i hp0
        have hgx : g x = k := by rw [hg, if_pos ((hadds x).2 ⟨hxd, by simp [Handler.rearms, hp, hp0]⟩)]
        refine hrest.insert (fun hm => hsep x hm hxd) (fun _ _ => rfl) fun i hi => ?_
        rw [hgx, hold i hi]
        exact hk' i
      · exact hrest
    · exact hrest

theorem Run.latestFirst {ops : List (Op N)} {s : TState N} (hr : Run Tame ops s) :
    ∃ l, Keeps (.ofOps ops) s l ∧ LatestFirst (addedAt ops) l := by
  induction hr with
  | nil => exact ⟨[], Keeps.init, List.Pairwise.nil⟩
  | @snoc ops s op s' _ ht he ih =>
    obtain ⟨l, hk, hf⟩ := ih
    have hlt : ∀ i, addedAt ops i < ops.length + 1 := fun i => Nat.lt_succ_of_le (addedAt_le ops i)
    have hsnoc : (Pending.ofOps (ops ++ [op]) : Pending N) = (Pending.ofOps ops).step op := by simp [Pending.ofOps]
    rw [hsnoc]
    cases op with
    | add i t =>
      obtain ⟨s₁, he', hk', -⟩ := hk.add ht.1.1 ht.1.2
      obtain rfl := he.unique he'
      refine ⟨_, hk', hf.insert (by rw [hk.mem_ids, ht.1.2]; simp) (fun k hki => ?_) fun k _ => ?_⟩
      · simp [addedAt_snoc, Pending.Adds, hki]
      · simpa [addedAt_snoc, Pending.Adds] using hlt k
    | abort i =>
      obtain ⟨s₁, he', hk', -⟩ := hk.abort i
      obtain rfl := he.unique he'
      refine ⟨_, hk', ?_⟩
      have hsame : addedAt (ops ++ [.abort i]) = addedAt ops := by
        funext k
        simp [addedAt_snoc, Pending.Adds]
      rw [hsame]
      exact hf.erase hk.quiet.rep.nodup
    | announce n h =>
      obtain ⟨s₁, he', hk', -⟩ := hk.announce ht.2
      obtain rfl := he.unique he'
      exact ⟨_, hk', LatestFirst.announce hk hf hlt fun i => addedAt_snoc ops _ i⟩

/-! ## The handler calls -/

/-- The ticks that are left to a timeout. -/
def Pending.left (P : Pending N) (i : Fin N) : Nat := (P i).elim 0 fun p => p.1 - p.2

/-- Earlier deadlines first, and of those with one deadline the one that was added first. -/
def ExpiryOrder (ops : List (Op N)) (log : List (Fin N)) : Prop :=
  log.Pairwise fun a b => (Pending.ofOps ops).left a < (Pending.ofOps ops).left b ∨
    (Pending.ofOps ops).left a = (Pending.ofOps ops).left b ∧ addedAt ops a < addedAt ops b

/-- All timeouts that `n` ticks make due have one deadline. -/
def Pending.OneDeadline (P : Pending N) (n : Nat) : Prop := ∀ i j, P.Due n i → P.Due n j → P.left i = P.left j

theorem Keeps.remaining_eq_left {P : Pending N} {s : TState N} {l : List (Fin N × ℤ)} (hk : Keeps P s l)
    {n : Nat} {i : Fin N} (hd : P.Due n i) : remaining l i = some (P.left i : ℤ) := by
  obtain ⟨p, hp, -⟩ := hd
  have := hk.early i p hp
  rw [hk.sum i, hp]
  simp only [Pending.left, hp, Option.map_some, Option.elim_some, Option.some.injEq]
  omega

/-- What expires is handled from the last deadline to the first, and the timeouts of one deadline as they were added. -/
theorem Keeps.dueList_pairwise {P : Pending N} {s : TState N} {l : List (Fin N × ℤ)} (hk : Keeps P s l)
    {f : Fin N → Nat} (hf : LatestFirst f l) (n : Nat) :
    (dueList n l).Pairwise fun a b => P.left b ≤ P.left a ∧ (P.left a = P.left b → f a < f b) := by
  have hq := hk.quiet.rep
  have hsorted := (remaining_sorted hq.nonneg hq.nodup).and hf
  rw [ids_advance (n : ℤ) l] at hsorted
  rw [dueList, pairwise_reverse]
  refine (pairwise_append.1 hsorted).1.imp_of_mem fun {a b} ha hb hab => ?_
  have hra := hk.remaining_eq_left ((hk.mem_dueList n a).1 (mem_reverse.2 ha))
  have hrb := hk.remaining_eq_left ((hk.mem_dueList n b).1 (mem_reverse.2 hb))
  have hle := hab.1 _ _ hra hrb
  exact ⟨by omega, fun heq => hab.2 (by rw [hra, hrb, heq])⟩

/-- **Timeouts that expire together are handled in the order in which they were added**, after every history; and
what an announcement handles is in the order of the deadlines exactly if there is only one. -/
theorem expires_in_order {ops : List (Op N)} {s : TState N} (hr : Run Tame ops s) {n : Nat} {h : Fin N → Handler}
    (ht : Tame (.ofOps ops) s (.announce n h)) :
    ∃ s' log, (Op.announce n h).Exec s s' ∧ s'.handled = s.handled ++ log ∧
      (∀ i, i ∈ log ↔ (Pending.ofOps ops).Due n i) ∧ (ExpiryOrder ops log ↔ (Pending.ofOps ops).OneDeadline n) := by
  obtain ⟨l, hk, hf⟩ := hr.latestFirst
  obtain ⟨s', he, -, hh⟩ := hk.announce ht.2
  have hdue := hk.mem_dueList n
  have hlog := hk.dueList_pairwise hf n
  refine ⟨s', dueList n l, he, hh, hdue, fun hord i j hi hj => ?_, fun hone => ?_⟩
  · -- the order and its reverse leave only equal deadlines
    have heq : (dueList n l).Pairwise fun a b => (Pending.ofOps ops).left a = (Pending.ofOps ops).left b :=
      (hord.and hlog).imp fun {a b} hab => by omega
    refine Pairwise.forall_of_forall_of_flip (R := fun a b => (Pending.ofOps ops).left a = (Pending.ofOps ops).left b)
      (fun _ _ => rfl) heq (heq.imp Eq.symm) ((hdue i).2 hi) ((hdue j).2 hj)
  · refine hlog.imp_of_mem fun {a b} ha hb hab => .inr ?_
    have heq := hone a b ((hdue a).1 ha) ((hdue b).1 hb)
    exact ⟨heq, hab.2 heq⟩

/-- Two timeouts added one after the other, for `a` and `b` ticks, and the queue that they make. -/
theorem twoAdded {a b : Nat} (ha : 1 ≤ a) (hb : 1 ≤ b) : ∃ s :
    TState 2, Run Tame [.add 0 a, .add 1 b] s ∧ s.handled = [] ∧
    Keeps (.ofOps [.add 0 a, .add 1 b]) s (DeltaQueue.insert 1 b (DeltaQueue.insert 0 a [])) := by
  obtain ⟨s₁, e₁, k₁, h₁⟩ := (Keeps.init (N := 2)).add (i := 0) ha rfl
  obtain ⟨s₂, e₂, k₂, h₂⟩ := k₁.add (i := 1) hb rfl
  have r₁ : Run Tame [.add 0 a] s₁ := Run.nil.snoc ⟨⟨ha, rfl⟩, trivial⟩ e₁
  exact ⟨s₂, r₁.snoc ⟨⟨hb, rfl⟩, trivial⟩ e₂, h₂.trans h₁, k₂⟩

theorem expires_in_order_twoAdded : ∃ s s' :
    TState 2, ∃ log, Run Tame [.add 0 3, .add 1 3] s ∧ (Op.announce 3 fun _ => .thread).Exec s s' ∧
    s'.handled = s.handled ++ log ∧ ExpiryOrder [.add 0 3, .add 1 3] log := by
  obtain ⟨s, hr, -⟩ := twoAdded (a := 3) (b := 3) (by decide) (by decide)
  have hleft : ∀ i, (Pending.ofOps [.add 0 3, .add 1 3] : Pending 2).left i = 3 := by decide
  obtain ⟨s', log, he, hh, -, hord⟩ :=
    expires_in_order hr (n := 3) (h := fun _ => .thread) ⟨show 1 ≤ 3 by decide, fun _ _ _ => rfl⟩
  exact ⟨s, s', log, hr, he, hh, hord.2 fun i j _ _ => (hleft i).trans (hleft j).symm⟩

/-- Timeouts 0 and 1 have one and two ticks, and two ticks are announced: 1 is handled first. -/
theorem two_deadlines_reversed : ∃ s s' : TState 2, Run Tame [.add 0 1, .add 1 2] s ∧
    Tame (.ofOps [.add 0 1, .add 1 2]) s (.announce 2 fun _ => .thread) ∧ (Op.announce 2 fun _ => .thread).Exec s s' ∧
    s'.handled = [1, 0] ∧ ¬ ExpiryOrder [.add 0 1, .add 1 2] s'.handled := by
  obtain ⟨s, hr, h0, hk⟩ := twoAdded (a := 1) (b := 2) (by decide) (by decide)
  have hc : HeadRearms (.ofOps [.add 0 1, .add 1 2]) s (.announce 2 fun _ => .thread) := fun _ _ _ => rfl
  obtain ⟨s', he, -, hh⟩ := hk.announce hc
  have hlog : s'.handled = [1, 0] := by
    rw [hh, h0]
    decide
  refine ⟨s, s', hr, ⟨show 1 ≤ 2 by decide, hc⟩, he, hlog, ?_⟩
  rw [hlog]
  unfold ExpiryOrder
  decide

end Zephyr
