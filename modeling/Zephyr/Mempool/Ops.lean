import Zephyr.Mempool.Inv
/-!
# Each pool function keeps blocks apart

`block_free` gives a block back and joins it with its three partners as long as they are free; `block_break`
splits one. Both go by block numbers, and `block_break` by the address as well: the two agree on every
level of a pool whose levels are even.
-/
namespace Zephyr

open Ring Buddy PoolDef Function List Option

variable {g : PoolDef} {p : Pool} {F : Nat → List Nat} {B : Set Block} {used : List Block} {x y : Block} {l b : Nat}

section ops

variable (h4 : 4 ∣ g.maxsz) (he : g.EvenLevels)

include h4 he

/-! ## Freeing -/

/-- The loop over the partners (mempool.c:169): after `k` rounds the first `k` are neither marked as free nor in
the list. -/
theorem clearPartners_spec {bn : Nat} (hx : g.InRange (l + 1, bn)) (h : PoolRep g p F B)
    (hlists : ∀ i < 4, child 4 (l, bn / 4) i ≠ (l + 1, bn) →
      (4 * (bn / 4) + i ∈ F (l + 1) ↔ InBuffer g (child 4 (l, bn / 4) i)))
    (hout : bn ∉ F (l + 1)) {k : Nat} (hk : k ≤ 4) :
    ∃ p', (List.range k).foldlM (clearPartner g (l + 1) bn) p = some p' ∧
      PoolRep g p' (update F (l + 1) ((F (l + 1)).filter fun c => ¬ (4 * (bn / 4) ≤ c ∧ c < 4 * (bn / 4) + k)))
        {y | y ∈ B ∧ ∀ i < k, y ≠ child 4 (l, bn / 4) i} := by
  induction k with
  | zero =>
    refine ⟨p, rfl, ?_⟩
    have hF : (F (l + 1)).filter (fun c => ¬ (4 * (bn / 4) ≤ c ∧ c < 4 * (bn / 4) + 0)) = F (l + 1) :=
      filter_eq_self.2 fun c _ => by simp
    simpa [hF] using h
  | succ k ih =>
    obtain ⟨p1, hfold, hrep⟩ := ih (by omega)
    obtain ⟨p2, hclear, hrep2⟩ := clearFreeBit_spec h4 he hrep (hx.parent.child hx.1 (i := k) (by omega))
    have hset : {y | y ∈ B ∧ ∀ i < k, y ≠ child 4 (l, bn / 4) i} \ {child 4 (l, bn / 4) k} =
        {y | y ∈ B ∧ ∀ i < k + 1, y ≠ child 4 (l, bn / 4) i} := by
      ext y
      simp only [Set.mem_sdiff, Set.mem_ofPred_eq, Set.mem_singleton_iff, Nat.forall_lt_succ_right, and_assoc]
    rw [hset] at hrep2
    refine ⟨if 4 * (bn / 4) + k ≠ bn ∧ g.blockFits (blockPtr (g.lsizes (l + 1)) (4 * (bn / 4) + k))
      (g.lsizes (l + 1)) = true then removeBlock p2 (blockPtr (g.lsizes (l + 1)) (4 * (bn / 4) + k)) else p2, ?_, ?_⟩
    · rw [range_succ, foldlM_append, hfold]
      show (clearPartner g (l + 1) bn p1 k >>= pure) = some _
      unfold clearPartner
      dsimp only
      rw [show clearFreeBit p1 (l + 1) (4 * (bn / 4) + k) = some p2 from hclear]
      rfl
    · have hif : (4 * (bn / 4) + k ≠ bn ∧ g.blockFits (blockPtr (g.lsizes (l + 1)) (4 * (bn / 4) + k))
        (g.lsizes (l + 1)) = true) ↔ 4 * (bn / 4) + k ∈ F (l + 1) := by
        constructor
        · rintro ⟨hne, hfits⟩
          exact (hlists k (by omega) fun e => hne (congrArg Prod.snd e)).2 hfits
        · intro hm
          have hne : 4 * (bn / 4) + k ≠ bn := fun e => hout (e ▸ hm)
          exact ⟨hne, (hlists k (by omega) fun e => hne (congrArg Prod.snd e)).1 hm⟩
      split
      · rename_i hc
        have hm : 4 * (bn / 4) + k ∈ update F (l + 1)
            ((F (l + 1)).filter fun c => ¬ (4 * (bn / 4) ≤ c ∧ c < 4 * (bn / 4) + k)) (l + 1) := by
          rw [update_self, mem_filter]
          exact ⟨hif.1 hc, by simp⟩
        have hF : (F (l + 1)).filter (fun c => ¬ (4 * (bn / 4) ≤ c ∧ c < 4 * (bn / 4) + (k + 1))) =
            ((F (l + 1)).filter fun c => ¬ (4 * (bn / 4) ≤ c ∧ c < 4 * (bn / 4) + k)).erase (4 * (bn / 4) + k) := by
          rw [((h.nodup hx.1).filter _).erase_eq_filter, List.filter_filter]
          refine filter_congr fun c _ => ?_
          rw [Bool.eq_iff_iff]
          simp only [Bool.and_eq_true, bne_iff_ne, decide_eq_true_eq]
          omega
        have hrem := removeBlock_spec hrep2 hx.1 hm
        rw [update_self, update_idem] at hrem
        rw [hF]
        exact hrem
      · rename_i hc
        have hm := mt hif.2 hc
        have hF : (F (l + 1)).filter (fun c => ¬ (4 * (bn / 4) ≤ c ∧ c < 4 * (bn / 4) + (k + 1))) =
            (F (l + 1)).filter fun c => ¬ (4 * (bn / 4) ≤ c ∧ c < 4 * (bn / 4) + k) := by
          refine filter_congr fun c hcF => ?_
          have : c ≠ 4 * (bn / 4) + k := fun e => hm (e ▸ hcF)
          rw [decide_eq_decide]
          omega
        rw [hF]
        exact hrep2

/-- A block whose four partners are free leaves the lists, and the block that they make up is in use. -/
theorem PoolInv.join {bn : Nat} {p1 : Pool} (h : PoolInv g p F B ((l + 1, bn) :: used))
    (hrep : PoolRep g p1 F (insert (l + 1, bn) B)) (hall : ∀ i < 4, child 4 (l, bn / 4) i ∈ insert (l + 1, bn) B) :
    ∃ p' F' B', (List.range 4).foldlM (clearPartner g (l + 1) bn) p1 = some p' ∧
    PoolInv g p' F' B' ((l, bn / 4) :: used) ∧ B' ⊆ B := by
  have hx := h.usedRange (l + 1, bn) (by simp)
  have hnot : (l + 1, bn) ∉ B := h.tiling.not_mem
  have hout : bn ∉ F (l + 1) := fun hm => hnot ((h.lists (l + 1, bn) hx.1).1 hm).1
  have hlists : ∀ i < 4, child 4 (l, bn / 4) i ≠ (l + 1, bn) →
      (4 * (bn / 4) + i ∈ F (l + 1) ↔ InBuffer g (child 4 (l, bn / 4) i)) := by
    intro i hi hne
    have hB := (Set.mem_insert_iff.1 (hall i hi)).resolve_left hne
    exact (h.lists (child 4 (l, bn / 4) i) hx.1).trans (and_iff_right hB)
  obtain ⟨p', hfold, hrep'⟩ := clearPartners_spec h4 he hx hrep hlists hout (le_refl 4)
  have hself : (l + 1, bn) = child 4 (l, bn / 4) (bn % 4) := Prod.ext rfl (Nat.div_add_mod _ _).symm
  have htiling := h.tiling
  rw [hself] at htiling
  have hjoin := htiling.join (Nat.mod_lt _ (by omega)) (by rw [← hself]; exact hall)
  rw [← hself] at hjoin
  refine ⟨p', _, _, hfold, ⟨hrep', fun y hy => ?_, fun y hy => ?_, fun y hy => ?_, hjoin⟩, fun y hy => ?_⟩
  · simp only [Set.mem_ofPred_eq, Set.mem_insert_iff]
    by_cases hl : y.1 = l + 1
    · rw [hl, update_self, mem_filter, ← hl, h.lists y hy]
      have hpart : (∀ i < 4, y ≠ child 4 (l, bn / 4) i) ↔ ¬ (4 * (bn / 4) ≤ y.2 ∧ y.2 < 4 * (bn / 4) + 4) := by
        constructor
        · intro hne hc
          refine hne (y.2 - 4 * (bn / 4)) (by omega) (Prod.ext hl ?_)
          simp only [child]
          omega
        · rintro hc i hi rfl
          simp only [child] at hc
          omega
      rw [hpart, decide_eq_true_eq]
      constructor
      · rintro ⟨⟨hB, hf⟩, hc⟩
        exact ⟨⟨.inr hB, hc⟩, hf⟩
      · rintro ⟨⟨hy' | hB, hc⟩, hf⟩
        · have : y.2 = bn := congrArg Prod.snd hy'
          omega
        · exact ⟨⟨hB, hf⟩, hc⟩
    · have hne : y ≠ (l + 1, bn) := fun e => hl (by rw [e])
      have hnc : ∀ i < 4, y ≠ child 4 (l, bn / 4) i := fun i _ e => hl (by rw [e]; rfl)
      rw [update_of_ne hl, h.lists y hy]
      simp only [hne, false_or, and_iff_left hnc]
  · rcases hy.1 with rfl | hB
    · exact hx
    · exact h.range y hB
  · rcases mem_cons.1 hy with rfl | hy
    · exact hx.parent
    · exact h.usedRange y (by simp [hy])
  · refine (Set.mem_insert_iff.1 hy.1).resolve_left fun e => ?_
    exact hy.2 (bn % 4) (Nat.mod_lt _ (by omega)) (e.trans hself)

/-- **One lock of `block_free` (mempool.c:164-190)** gives the block to its list, or joins it with its partners. -/
theorem PoolInv.blockFreeSection {level bn : Nat} (h : PoolInv g p F B ((level, bn) :: used)) :
    (∃ p' F', blockFreeSection g p level bn = some (p', none) ∧ PoolInv g p' F' (insert (level, bn) B) used) ∨
      ∃ p' F' B' l, level = l + 1 ∧ blockFreeSection g p level bn = some (p', some (l, bn / 4)) ∧
      PoolInv g p' F' B' ((l, bn / 4) :: used) ∧ B' ⊆ B := by
  cases level with
  | zero =>
    obtain ⟨p1, F', hset, -, hinv⟩ := h.give h4 he fun z k _ hz => by simp [child] at hz
    refine .inl ⟨_, F', ?_, hinv⟩
    rw [Zephyr.blockFreeSection, show setFreeBit p 0 bn = some p1 from hset]
    rfl
  | succ level =>
    have hx := h.usedRange (level + 1, bn) (by simp)
    obtain ⟨p1, hset, hrep⟩ := setFreeBit_spec h4 he h.toPoolRep hx
    obtain ⟨v, hv, hall⟩ := partnerBits_spec h4 he hrep hx
    have hsection : Zephyr.blockFreeSection g p (level + 1) bn =
        if v = 0xf#32 then ([0, 1, 2, 3].foldlM (clearPartner g (level + 1) bn) p1).bind fun p =>
          some (p, some (level, bn / 4))
        else some (appendFitting g p1 (level + 1) (blockPtr (g.lsizes (level + 1)) bn), none) := by
      simp only [Zephyr.blockFreeSection, show setFreeBit p (level + 1) bn = some p1 from hset, hv,
        bind_eq_bind, bind_some]
    by_cases hvf : v = 0xf#32
    · right
      obtain ⟨p2, F2, B2, hfold, hinv2, hsub⟩ := h.join h4 he hrep (hall.1 hvf)
      refine ⟨p2, F2, B2, level, rfl, ?_, hinv2, hsub⟩
      rw [hsection, if_pos hvf, show [0, 1, 2, 3] = List.range 4 from rfl, hfold]
      rfl
    · left
      have hself : (level + 1, bn) = child 4 (level, bn / 4) (bn % 4) := Prod.ext rfl (Nat.div_add_mod _ _).symm
      obtain ⟨p1', F', hset', -, hinv⟩ := h.give h4 he fun z k hk hz => by
        obtain rfl : (level, bn / 4) = z := child_inj (Nat.mod_lt _ (by omega)) hk (hself.symm.trans hz)
        by_contra hno
        exact hvf (hall.2 fun i hi => by_contra fun hi' => hno ⟨i, hi, hi'⟩)
      obtain rfl : p1 = p1' := by simpa [hset] using hset'
      exact ⟨_, F', by rw [hsection, if_neg hvf], hinv⟩

omit h4 he in
/-- `block_free` is its sections one after another. -/
theorem blockFree_eq (level bn : Nat) : blockFree g p level bn = (Zephyr.blockFreeSection g p level bn).bind fun r =>
    match r.2 with
    | none => some r.1
    | some (level, bn) => blockFree g r.1 level bn := by
  cases level with
  | zero =>
    rw [blockFree, Zephyr.blockFreeSection]
    cases setFreeBit p 0 bn <;> rfl
  | succ level =>
    rw [blockFree, Zephyr.blockFreeSection]
    cases setFreeBit p (level + 1) bn with
    | none => rfl
    | some p1 =>
      simp only [bind_eq_bind, bind_some]
      cases partnerBits p1 (level + 1) bn with
      | none => rfl
      | some v =>
        simp only [bind_some]
        split
        · cases [0, 1, 2, 3].foldlM (clearPartner g (level + 1) bn) p1 <;> rfl
        · rfl

/-- **`block_free` (mempool.c:158)**, by induction on the level: a block that is joined is freed on the level above. -/
theorem PoolInv.blockFree (level : Nat) : ∀ {bn : Nat} {p : Pool} {F : Nat → List Nat} {B : Set Block},
    PoolInv g p F B ((level, bn) :: used) → ∃ p' F' B', blockFree g p level bn = some p' ∧ PoolInv g p' F' B' used := by
  induction level with
  | zero =>
    intro bn p F B h
    rcases h.blockFreeSection h4 he with ⟨p', F', hsec, hinv⟩ | ⟨_, _, _, l, hl, -⟩
    · exact ⟨p', F', _, by rw [blockFree_eq, hsec]; rfl, hinv⟩
    · cases hl
  | succ level ih =>
    intro bn p F B h
    rcases h.blockFreeSection h4 he with ⟨p', F', hsec, hinv⟩ | ⟨p2, F2, B2, l, hl, hsec, hinv2, -⟩
    · exact ⟨p', F', _, by rw [blockFree_eq, hsec]; rfl, hinv⟩
    · obtain rfl : level = l := Nat.succ.inj hl
      obtain ⟨p3, F3, B3, hfree, hinv3⟩ := ih hinv2
      exact ⟨p3, F3, B3, by rw [blockFree_eq, hsec]; exact hfree, hinv3⟩

/-! ## Breaking -/

/-- **`block_break` (mempool.c:198)**: what is left in use is the first part. -/
theorem PoolInv.blockBreak (h : PoolInv g p F B (x :: used)) (hl : x.1 + 1 < g.nLevels) :
    ∃ p' F' B', blockBreak g p (blockPtr (g.lsizes x.1) x.2) x.1 = some p' ∧ PoolInv g p' F' B' (child 4 x 0 :: used) ∧
      ∀ y ∈ B', y ∈ B ∨ y.1 = x.1 + 1 := by
  have hx := h.usedRange x (by simp)
  have h8 := eight_le_lsizes h4 hx.1
  have hnum : blockNum (blockPtr (g.lsizes x.1) x.2) (g.lsizes x.1) = x.2 := Nat.mul_div_cancel_left _ (by omega)
  -- where `block_break` puts part `i` is where its number says
  have haddr : ∀ i, g.lsizes (x.1 + 1) * i + blockPtr (g.lsizes x.1) x.2 = blockPtr (g.lsizes (x.1 + 1))
    (4 * x.2 + i) := by
    intro i
    rw [← he.ptr_child hx hl]
    simp only [blockPtr]
    ring
  have hsplit : PoolInv g p F B ([child 4 x 0, child 4 x 1, child 4 x 2, child 4 x 3] ++ used) := by
    have hup : x ∉ bottom g := fun hb => by have := hb.1; omega
    refine ⟨h.toPoolRep, h.lists, h.range, fun y hy => ?_, h.tiling.split (by omega) hup⟩
    rcases mem_append.1 hy with hy | hy
    · simp only [mem_cons, not_mem_nil, or_false] at hy
      rcases hy with rfl | rfl | rfl | rfl <;> exact hx.child hl (by omega)
    · exact h.usedRange y (by simp [hy])
  have hperm : (child 4 x 1 :: child 4 x 2 :: child 4 x 3 :: child 4 x 0 :: used).Perm
      ([child 4 x 0, child 4 x 1, child 4 x 2, child 4 x 3] ++ used) := by
    have hmid : ([child 4 x 1, child 4 x 2, child 4 x 3] ++ child 4 x 0 :: used).Perm
        (child 4 x 0 :: ([child 4 x 1, child 4 x 2, child 4 x 3] ++ used)) := perm_middle
    exact hmid
  -- one part after another is given back
  have hone : ∀ {p : Pool} {F : Nat → List Nat} {B : Set Block} {i : Nat} {used : List Block}, i < 4 → i ≠ 0 →
    child 4 x 0 ∈ used → PoolInv g p F B (child 4 x i :: used) →
      ∃ p' F' B', breakOff g (blockPtr (g.lsizes x.1) x.2) x.1 x.2 p i = some p' ∧ PoolInv g p' F' B' used ∧
      ∀ y ∈ B', y ∈ B ∨ y.1 = x.1 + 1 := by
    intro p F B i used hi hne hfirst h
    obtain ⟨p1, F', hset, -, hinv⟩ := h.give h4 he fun z k hk hz => by
      -- the first part stays in use
      obtain rfl : x = z := child_inj hi hk hz
      refine ⟨0, by omega, ?_⟩
      rintro (e | hB)
      · exact (apart_children hne.symm).ne e
      · exact (h.tiling.across _ hB _ (mem_cons_of_mem _ hfirst)).ne rfl
    refine ⟨_, F', _, ?_, hinv, fun y hy => (Set.mem_insert_iff.1 hy).symm.imp_right fun e => by rw [e]; rfl⟩
    rw [breakOff, show setFreeBit p (x.1 + 1) (4 * x.2 + i) = some p1 from hset, haddr]
    rfl
  obtain ⟨p1, F1, B1, hp1, h1, hB1⟩ := hone (by omega) (by omega) (by simp) (hsplit.perm hperm)
  obtain ⟨p2, F2, B2, hp2, h2, hB2⟩ := hone (by omega) (by omega) (by simp) h1
  obtain ⟨p3, F3, B3, hp3, h3, hB3⟩ := hone (by omega) (by omega) (by simp) h2
  refine ⟨p3, F3, B3, ?_, h3, fun y hy => ?_⟩
  rotate_left
  · exact (hB3 y hy).elim (fun hy => (hB2 y hy).elim (fun hy => hB1 y hy) .inr) .inr
  unfold Zephyr.blockBreak
  rw [hnum]
  simp only [foldlM_cons, foldlM_nil, hp1, hp2, hp3, bind_eq_bind, bind_some]
  rfl

/-- The loop that breaks a block `n` times (mempool.c:275). -/
theorem PoolInv.breakDown (n : Nat) :
    ∀ {x : Block} {p : Pool} {F : Nat → List Nat} {B : Set Block}, PoolInv g p F B (x :: used) →
    x.1 + n < g.nLevels → InBuffer g x → ∃ p' F' B' y, breakDown g (blockPtr (g.lsizes x.1) x.2) n x.1 p = some p' ∧
      PoolInv g p' F' B' (y :: used) ∧ y.1 = x.1 + n ∧
      blockPtr (g.lsizes y.1) y.2 = blockPtr (g.lsizes x.1) x.2 ∧ InBuffer g y := by
  induction n with
  | zero =>
    intro x p F B h _ hbuf
    exact ⟨p, F, B, x, rfl, h, rfl, rfl, hbuf⟩
  | succ n ih =>
    intro x p F B h hl hbuf
    have hx := h.usedRange x (by simp)
    obtain ⟨p1, F1, B1, hbreak, h1, -⟩ := h.blockBreak h4 he (by omega)
    have hptr : blockPtr (g.lsizes (child 4 x 0).1) (child 4 x 0).2 = blockPtr (g.lsizes x.1) x.2 :=
      he.ptr_child hx (by omega)
    have hbuf1 : InBuffer g (child 4 x 0) := by
      have hle : g.lsizes (x.1 + 1) ≤ g.lsizes x.1 := by
        have := (lsizes_succ_bounds (g := g) x.1).2
        have := eight_le_lsizes h4 hx.1
        omega
      rw [InBuffer, hptr]
      unfold InBuffer blockFits at hbuf
      unfold blockFits
      rw [decide_eq_true_eq] at hbuf ⊢
      show _ + g.lsizes (x.1 + 1) - 1 < _
      omega
    obtain ⟨p2, F2, B2, y, hdown, h2, hy, hyptr, hybuf⟩ := ih h1 (by simp only [child]; omega) hbuf1
    refine ⟨p2, F2, B2, y, ?_, h2, by rw [hy]; simp only [child]; omega, hyptr.trans hptr, hybuf⟩
    rw [Zephyr.breakDown, hbreak]
    rw [hptr] at hdown
    exact hdown

end ops

end Zephyr
