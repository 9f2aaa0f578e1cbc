import Zephyr.Lib.RedBlack.Insert
/-!
# Repairing a missing black

`fixBlack p t` is the bottom-up repair when the tree `t` at `p` has one black node too few on every
way down. A red sibling is first rotated above the parent; a black one either gives up its own black
(`mend`, and the parent may now miss one) or one of its red children supplies it.

The rotations lower `t`. That they never lower it beyond a bound `m` is read off the colours: `t` is
black, so the ways through it are not the longest ones `m` has to allow for.
-/
namespace RedBlack

open ColorTree RedBlack.Path

variable {α : Type*}

/-- Both children of the sibling are black. -/
def quiet (ch : Bool → ColorTree α) : Bool := (ch false).color = .black && (ch true).color = .black

/-- The subtree that replaces parent `f` and the tree `t` below it when the sibling is black. -/
def mend (f : Frame α) (t : ColorTree α) : ColorTree α :=
  match f.sib with
  | .nil => f.fill t
  | node _ y ch =>
    if quiet ch then node .black f.x (pair f.side t (node .red y ch))
    else if (ch !f.side).color = .red then
      node f.c y (pair f.side (node .black f.x (pair f.side t (ch f.side))) (ch !f.side).blacken)
    else match ch f.side with
      | .nil => f.fill t
      | node _ z cz => node f.c z (pair f.side (node .black f.x (pair f.side t (cz f.side)))
          (node .black y (pair f.side (cz !f.side) (ch !f.side))))

/-- After `mend`, does the subtree still miss a black? -/
def stillMissing (f : Frame α) : Bool :=
  match f.sib with
  | .nil => false
  | node _ _ ch => quiet ch && f.c = .black

/-- A red sibling `y` with children `ch` above the parent: the parent's frame and the one above it. -/
def underRed (f : Frame α) (ch : Bool → ColorTree α) : Frame α := ⟨f.side, .red, f.x, ch f.side⟩
def overRed (f : Frame α) (y : α) (ch : Bool → ColorTree α) : Frame α := ⟨f.side, .black, y, ch !f.side⟩

def fixBlack : Path α → ColorTree α → ColorTree α
  | [], t => t
  | f :: p, t =>
    match f.sib with
    | node .red y ch => plug (overRed f y ch :: p) (mend (underRed f ch) t)
    | _ => if stillMissing f then fixBlack p (mend f t) else plug p (mend f t)

variable {f : Frame α} {p : Path α} {y : α} {ch : Bool → ColorTree α} {t : ColorTree α} {n m : Nat}

theorem fixBlack_red (h : f.sib = node .red y ch) (t : ColorTree α) :
    fixBlack (f :: p) t = plug (overRed f y ch :: p) (mend (underRed f ch) t) := by
  simp [fixBlack, h]

theorem fixBlack_black (h : f.sib.color = .black) (t : ColorTree α) :
    fixBlack (f :: p) t = if stillMissing f then fixBlack p (mend f t) else plug p (mend f t) := by
  cases hs : f.sib with
  | nil => simp [fixBlack, hs]
  | node c y ch =>
    obtain rfl : c = .black := by simpa [hs] using h
    simp [fixBlack, hs]

theorem quiet_iff (s : Bool) : quiet ch = true ↔ (ch s).color = .black ∧ (ch !s).color = .black := by
  cases s <;> simp [quiet, and_comm]

theorem color_ne_black : t.color ≠ .black ↔ t.color = .red := by
  cases t.color <;> simp

/-! ## One level -/

theorem inorder_mend (f : Frame α) (t : ColorTree α) : (mend f t).inorder = (f.fill t).inorder := by
  cases hs : f.sib with
  | nil => simp [mend, hs]
  | node c y ch =>
    simp only [mend, hs]
    split
    · cases hside : f.side <;> simp [Frame.fill, inorder_node, hs, hside]
    · split
      · cases hside : f.side <;> simp [Frame.fill, inorder_node, hs, hside]
      · cases hz : ch f.side with
        | nil => rfl
        | node cz z chz =>
          cases hside : f.side <;> rw [hside] at hz <;> simp [Frame.fill, inorder_node, hs, hside, hz]

/-- One level of the repair, for the colours and black heights: either the hole one level up still
wants one black more, or all is well there. -/
theorem mend_bal (hp : Fits (f :: p) .black (n + 1)) (ht : Bal t n) (hs : f.sib.color = .black) :
    ∃ k, Bal (mend f t) k ∧
      if stillMissing f then (mend f t).color = .black ∧ Fits p .black (k + 1) ∧
      k + 1 + blacks p = n + 1 + blacks (f :: p)
      else Fits p (mend f t).color k ∧ k + blacks p = n + 1 + blacks (f :: p) := by
  have hsib := hp.bal_sib
  obtain ⟨c, y, ch, hsy⟩ := hsib.ne_nil
  obtain rfl : c = .black := by simpa [hsy] using hs
  rw [hsy] at hsib
  obtain ⟨m, hm, hch⟩ := hsib
  obtain rfl : n = m := by omega
  by_cases hq : quiet ch = true
  · obtain ⟨hc0, hc1⟩ := (quiet_iff f.side).1 hq
    have hred : Bal (node Color.red y ch) n := fun s => ⟨hch s, by
      rcases Bool.eq_or_eq_not s f.side with h | h <;> rw [h] <;> assumption⟩
    have hmend : mend f t = node .black f.x (pair f.side t (node .red y ch)) := by simp [mend, hsy, hq]
    refine ⟨n + 1, by rw [hmend]; exact bal_black.2 ⟨ht, hred⟩, ?_⟩
    cases hf : f.c with
    | red =>
      simp only [stillMissing, hsy, hq, hf, hmend, color_node, blacks]
      exact ⟨(hp.cons_red hf).2.2.2.to_black, by simp⟩
    | black =>
      simp only [stillMissing, hsy, hq, hf, hmend, color_node, blacks]
      exact ⟨trivial, (hp.cons_black hf).2, by simp; omega⟩
  · have hstill : stillMissing f = false := by simp [stillMissing, hsy, hq]
    -- the parent's colour goes to the node that takes its place, over two black nodes
    have hput : ∀ {z : α} {u v : ColorTree α}, Bal u (n + 1) → u.color = .black → Bal v (n + 1) → v.color = .black →
        ∃ k, Bal (node f.c z (pair f.side u v)) k ∧ Fits p f.c k ∧ k + blacks p = n + 1 + blacks (f :: p) := by
      intro z u v hu huc hv hvc
      cases hf : f.c with
      | red => exact ⟨n + 1, bal_red.2 ⟨⟨hu, huc⟩, hv, hvc⟩, (hp.cons_red hf).2.2.2, by simp [blacks, hf]⟩
      | black => exact ⟨n + 2, bal_black.2 ⟨hu, hv⟩, (hp.cons_black hf).2, by simp [blacks, hf]; omega⟩
    by_cases ho : (ch !f.side).color = .red
    · have hmend : mend f t =
          node f.c y (pair f.side (node .black f.x (pair f.side t (ch f.side))) (ch !f.side).blacken) := by
        simp [mend, hsy, hq, ho]
      obtain ⟨k, h1, h2, h3⟩ := hput (z := y) (bal_black.2 ⟨ht, hch f.side⟩) rfl ((hch _).blacken_red ho) (by simp)
      exact ⟨k, by rw [hmend]; exact h1, by rw [hstill, hmend]; exact ⟨h2, h3⟩⟩
    · have hi : (ch f.side).color = .red := by
        rw [← color_ne_black]
        intro hb
        exact hq ((quiet_iff f.side).2 ⟨hb, by rw [← not_ne_iff, color_ne_black]; exact ho⟩)
      cases hz : ch f.side with
      | nil => rw [hz] at hi; simp at hi
      | node cz z chz =>
        obtain rfl : cz = .red := by simpa [hz] using hi
        have hzb := hch f.side
        rw [hz] at hzb
        have hmend : mend f t = node f.c z (pair f.side (node .black f.x (pair f.side t (chz f.side)))
            (node .black y (pair f.side (chz !f.side) (ch !f.side)))) := by
          simp [mend, hsy, hq, ho, hz]
        obtain ⟨k, h1, h2, h3⟩ := hput (z := z) (bal_black.2 ⟨ht, (hzb f.side).1⟩) rfl
          (bal_black.2 ⟨(hzb !f.side).1, hch !f.side⟩ : Bal (node Color.black y _) _) rfl
        exact ⟨k, by rw [hmend]; exact h1, by rw [hstill, hmend]; exact ⟨h2, h3⟩⟩

/-- One level lowers `t` by one, the rest not at all. -/
theorem depth_mend {k : Nat} (ht : t.depth + 2 ≤ k) (hs : f.sib.depth + 1 ≤ k) : (mend f t).depth ≤ k := by
  have hfill : (f.fill t).depth ≤ k := depth_pair_le.2 ⟨by omega, hs⟩
  cases hsy : f.sib with
  | nil => simpa [mend, hsy] using hfill
  | node c y ch =>
    rw [hsy] at hs
    have h0 := depth_child_lt c y ch f.side
    have h1 := depth_child_lt c y ch !f.side
    have hpar : ∀ u : ColorTree α, u.depth + 2 ≤ k → (node Color.black f.x (pair f.side t u)).depth + 1 ≤ k := by
      intro u hu
      have : (node Color.black f.x (pair f.side t u)).depth ≤ k - 1 := depth_pair_le.2 ⟨by omega, by omega⟩
      omega
    simp only [mend, hsy]
    split
    · exact depth_pair_le.2 ⟨by omega, hs⟩
    · split
      · exact depth_pair_le.2 ⟨hpar _ (by omega), by simp; omega⟩
      · cases hz : ch f.side with
        | nil => exact hfill
        | node cz z chz =>
          rw [hz] at h0
          have h2 := depth_child_lt cz z chz f.side
          have h3 := depth_child_lt cz z chz !f.side
          have hold : (node Color.black y (pair f.side (chz !f.side) (ch !f.side))).depth ≤ k - 1 :=
            depth_pair_le.2 ⟨by omega, by omega⟩
          exact depth_pair_le.2 ⟨hpar _ (by omega), by omega⟩

/-- There is room to lower a black tree that misses a black. -/
theorem room (hp : Fits (f :: p) .black (n + 1)) (ht : Bal t n)
    (hc : t.color = .black) (hm : 2 * (n + 1 + blacks (f :: p)) ≤ m + 1) : p.length + (t.depth + 2) ≤ m := by
  have hd := ht.depth_le.2 hc
  cases hf : f.c with
  | red =>
    have := (hp.cons_red hf).2.2.2.length_le.2 rfl
    simp only [blacks, hf, reduceCtorEq, if_false] at hm
    omega
  | black =>
    have := (hp.cons_black hf).2.length_le.1
    simp only [blacks, hf, if_true] at hm
    omega

theorem depth_plug_mend (hp : Fits (f :: p) .black (n + 1))
    (ht : Bal t n) (hc : t.color = .black) (hd : SibsLe m (f :: p)) (hm : 2 * (n + 1 + blacks (f :: p)) ≤ m + 1) :
    (plug p (mend f t)).depth ≤ m := by
  have hroom := room hp ht hc hm
  obtain ⟨hd1, hd2⟩ := hd
  have : (mend f t).depth ≤ m - p.length := depth_mend (by omega) (by omega)
  exact depth_plug_le.2 ⟨by omega, hd2⟩

/-- The path after a red sibling has been rotated above the parent fits just as well, and no deeper. -/
theorem fits_underRed
    (hp : Fits (f :: p) .black (n + 1)) (hs : f.sib = node .red y ch) (hd : SibsLe m (f :: p)) :
    Fits (underRed f ch :: overRed f y ch :: p) .black (n + 1) ∧
      blacks (underRed f ch :: overRed f y ch :: p) = blacks (f :: p) ∧
      SibsLe m (underRed f ch :: overRed f y ch :: p) ∧ (ch f.side).color = .black := by
  have hf : f.c = .black := by
    cases hf : f.c with
    | red => have := (hp.cons_red hf).2.1; simp [hs] at this
    | black => rfl
  obtain ⟨hb, hq⟩ := hp.cons_black hf
  rw [hs] at hb
  obtain ⟨h1, h2⟩ := hb f.side
  refine ⟨⟨⟨rfl, h2, h1⟩, (hb !f.side).1, hq⟩, by simp [blacks, underRed, overRed, hf], ?_, h2⟩
  obtain ⟨hd1, hd2⟩ := hd
  rw [hs] at hd1
  have h0 := depth_child_lt .red y ch f.side
  have h1 := depth_child_lt .red y ch !f.side
  simp only [SibsLe, underRed, overRed, List.length_cons]
  exact ⟨by omega, by omega, hd2⟩

/-- The parent is red now, so the repair ends there. -/
theorem stillMissing_underRed (f : Frame α) (ch : Bool → ColorTree α) : stillMissing (underRed f ch) = false := by
  unfold stillMissing
  split <;> simp [underRed]

/-! ## The whole repair -/

theorem inorder_overRed (hs : f.sib = node .red y ch) (t : ColorTree α) :
    (plug (underRed f ch :: overRed f y ch :: p) t).inorder = (plug (f :: p) t).inorder := by
  simp only [plug_cons, inorder_plug]
  congr 2
  cases hside : f.side <;> simp [Frame.fill, underRed, overRed, inorder_node, hs, hside]

theorem fixBlack_inorder (p : Path α) (t : ColorTree α) : (fixBlack p t).inorder = (plug p t).inorder := by
  induction p generalizing t with
  | nil => rfl
  | cons f p ih =>
    have hmend : ∀ q : Path α, (plug q (mend f t)).inorder = (plug (f :: q) t).inorder := by
      intro q
      rw [plug_cons, inorder_plug, inorder_plug, inorder_mend]
    cases hs : f.sib.color with
    | black =>
      rw [fixBlack_black hs]
      split
      · rw [ih, hmend]
      · exact hmend p
    | red =>
      cases hsy : f.sib with
      | nil => simp [hsy] at hs
      | node c y ch =>
        obtain rfl : c = .red := by simpa [hsy] using hs
        rw [fixBlack_red hsy, ← inorder_overRed hsy, inorder_plug, inorder_mend, ← inorder_plug]
        rfl

theorem fixBlack_inRange (p : Path α) :
    ∀ {t : ColorTree α} {n m : Nat}, Bal t n → t.color = .black → Fits p .black (n + 1) →
    (plug p t).depth ≤ m → 2 * (n + 1 + blacks p) ≤ m + 1 → InRange m (fixBlack p t) := by
  induction p with
  | nil => exact fun ht hc _ hd hm => ⟨hc, hd, _, ht, by simp [blacks] at hm; omega⟩
  | cons f p ih =>
    intro t n m ht hc hp hd hm
    obtain ⟨-, hsibs⟩ := depth_plug_le.1 hd
    cases hs : f.sib.color with
    | black =>
      have hd' := depth_plug_mend hp ht hc hsibs hm
      obtain ⟨k, hk, hrest⟩ := mend_bal hp ht hs
      rw [fixBlack_black hs]
      split
      · rename_i hst
        rw [if_pos hst] at hrest
        exact ih hk hrest.1 hrest.2.1 hd' (by omega)
      · rename_i hst
        rw [if_neg hst] at hrest
        obtain ⟨hb, hcol⟩ := hrest.1.bal_plug hk rfl
        exact ⟨hcol, hd', _, hb, by omega⟩
    | red =>
      cases hsy : f.sib with
      | nil => simp [hsy] at hs
      | node c y ch =>
        obtain rfl : c = .red := by simpa [hsy] using hs
        obtain ⟨hp', hbl, hsibs', hcs⟩ := fits_underRed hp hsy hsibs
        rw [fixBlack_red hsy]
        have hd' := depth_plug_mend hp' ht hc hsibs' (by rw [hbl]; exact hm)
        obtain ⟨k, hk, hrest⟩ := mend_bal hp' ht hcs
        rw [stillMissing_underRed] at hrest
        obtain ⟨hb, hcol⟩ := hrest.1.bal_plug hk rfl
        have := hrest.2
        exact ⟨hcol, hd', _, hb, by omega⟩

/-! ## Dropping a node with at most one child -/

/-- Remove a node of colour `c` at `p` whose subtree is otherwise `t`. -/
def removeAt (p : Path α) (c : Color) (t : ColorTree α) : ColorTree α :=
  if p = [] ∨ c = .red ∨ t.color = .red then plug p t.blacken else fixBlack p t

theorem inorder_removeAt (p : Path α) (c : Color) (t : ColorTree α) :
    (removeAt p c t).inorder = before p ++ t.inorder ++ after p := by
  unfold removeAt
  split
  · rw [inorder_plug, inorder_blacken]
  · rw [fixBlack_inorder, inorder_plug]

/-- **Removal.** The bound need not grow. -/
theorem removeAt_inRange {c : Color} {x : α} {s : Bool}
    (h : InRange m (plug p (node c x (pair s t .nil)))) : InRange m (removeAt p c t) := by
  obtain ⟨b, hb, hm⟩ := h.bal
  obtain ⟨n, hn, hp, hnb⟩ := Fits.of_bal_plug hb h.black
  obtain ⟨hd, hsibs⟩ := depth_plug_le.1 h.depth
  have hdn : (node c x (pair s t .nil)).depth ≤ m - p.length := by omega
  have hdt := (depth_pair_le.1 hdn).1
  have hdrop : p.length + t.blacken.depth ≤ m := by simp; omega
  simp only [color_node] at hp
  cases c with
  | red =>
    -- its other child is empty, so it has no red ones either
    obtain ⟨⟨ht, htc⟩, hnil, -⟩ := bal_red.1 hn
    obtain rfl : n = 0 := hnil
    obtain ⟨hbal, hcol⟩ := hp.to_black.bal_plug ht htc
    have hrem : removeAt p .red t = plug p t.blacken := by simp [removeAt]
    rw [hrem, blacken_of_black htc] at *
    exact ⟨hcol, depth_plug_le.2 ⟨hdrop, hsibs⟩, _, hbal, by omega⟩
  | black =>
    obtain ⟨k, rfl, -⟩ := id hn
    obtain ⟨ht, hnil⟩ := bal_black.1 hn
    obtain rfl : k = 0 := hnil
    cases htc : t.color with
    | red =>
      obtain ⟨hbal, hcol⟩ := hp.bal_plug (ht.blacken_red htc) (by simp)
      have hrem : removeAt p .black t = plug p t.blacken := by simp [removeAt, htc]
      rw [hrem]
      exact ⟨hcol, depth_plug_le.2 ⟨hdrop, hsibs⟩, _, hbal, by omega⟩
    | black =>
      by_cases hnil : p = []
      · subst hnil
        have hrem : removeAt [] .black t = t := by simp [removeAt, blacken_of_black htc]
        rw [hrem]
        exact ⟨htc, by simpa using hdrop, 0, ht, by omega⟩
      · have hrem : removeAt p .black t = fixBlack p t := by simp [removeAt, hnil, htc]
        rw [hrem]
        refine fixBlack_inRange p ht htc hp (depth_plug_le.2 ⟨by omega, hsibs⟩) (by omega)

end RedBlack
