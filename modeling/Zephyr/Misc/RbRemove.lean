import Zephyr.Misc.RbRefine
/-!
# `rbtree`: removal refines removal from a tree

`fix_missing_black` is given either a black node that misses a black below, or, when a childless
black node is removed, that node itself as a placeholder (`null_node`), which the first round takes
out of the tree. `Placed` covers both: `u` is the tree in memory, `t` the one that is meant.
-/
namespace Zephyr

open RedBlack RedBlack.ColorTree RedBlack.Path Function List Option

variable {α : Type*}

/-- `u` stands in memory for `t`, with `n` on top of the stack; `l` are the nodes of the whole tree. -/
def Placed (nullNode : Option α) (n : α) (l : List α) (u t : ColorTree α) : Prop :=
  (nullNode = some n ∧ u = .node .black n (fun _ => .nil) ∧ t = .nil) ∨
    ((∀ z ∈ l, nullNode ≠ some z) ∧ u = t ∧ t.root? = some n)

variable {nullNode : Option α} {n y : α} {l : List α} {u t T : ColorTree α} {H : Heap α}
    {ch : Bool → ColorTree α} {m : Nat} {lt : α → α → Bool}

theorem Placed.root (h : Placed nullNode n l u t) : u.root? = some n := by
  rcases h with ⟨-, rfl, -⟩ | ⟨-, rfl, h⟩
  · rfl
  · exact h

theorem Placed.mem (h : Placed nullNode n l u t) : n ∈ u.inorder := root?_mem h.root

/-- The tree that is meant has no node twice either, and none that is not in memory. -/
theorem Placed.meant {p : Path α} (h : Placed nullNode n (plug p u).inorder u t) (hnd : (plug p u).inorder.Nodup) :
    (plug p t).inorder.Nodup ∧ (∀ z ∈ (plug p t).inorder, z ∈ (plug p u).inorder) ∧
      ∀ z ∈ (plug p t).inorder, nullNode ≠ some z := by
  rcases h with ⟨hn, rfl, rfl⟩ | ⟨hn, rfl, hroot⟩
  · obtain ⟨-, hp, hdis⟩ := nodup_plug.1 hnd
    refine ⟨nodup_plug.2 ⟨by simp, hp, by simp⟩, fun z hz => ?_, fun z hz he => ?_⟩
    · rw [mem_plug] at hz ⊢
      simp only [inorder_nil, not_mem_nil, false_or] at hz
      exact .inr hz
    · rw [hn] at he
      cases he
      rw [mem_plug] at hz
      simp only [inorder_nil, not_mem_nil, false_or] at hz
      exact hdis n (by simp [inorder_node]) hz
  · exact ⟨hnd, fun _ h => h, hn⟩

/-- Next to an empty child there is nothing or a red one. -/
theorem nil_or_red {x : α} {s : Bool} {n : Nat} {c : Color} (h : Bal (.node c x (pair s t .nil)) n) :
    t = .nil ∨ t.color = .red := by
  have h0 : Bal t 0 := by
    cases c with
    | red => obtain ⟨⟨ht, -⟩, hn, -⟩ := bal_red.1 h; obtain rfl : n = 0 := hn; exact ht
    | black =>
      obtain ⟨k, rfl, -⟩ := id h
      obtain ⟨ht, hn⟩ := bal_black.1 h
      obtain rfl : k = 0 := hn
      exact ht
  cases t with
  | nil => exact .inl rfl
  | node c y ch =>
    cases c with
    | red => exact .inr rfl
    | black => obtain ⟨k, hk, -⟩ := h0; omega

theorem nodes_append (p q : Path α) : nodes (p ++ q) = nodes p ++ nodes q := by
  induction p with
  | nil => rfl
  | cons f p ih => simp [nodes, ih]

/-- The topmost node of a path, or what is in its hole. -/
def topOf : Path α → Option α → Option α
  | [], r => r
  | f :: p, _ => topOf p (some f.x)

theorem around_append {q p : Path α} {r : Option α} : Around H (q ++ p) r ↔ Around H q r ∧ Around H p (topOf q r) := by
  induction q generalizing r with
  | nil => simp [Around, topOf]
  | cons f q ih => simp only [cons_append, Around, topOf, ih, and_assoc]

theorem root_plug_topOf (q : Path α) (t : ColorTree α) : (plug q t).root? = topOf q t.root? := by
  induction q generalizing t with
  | nil => rfl
  | cons f q ih => rw [plug_cons, ih]; rfl

variable [DecidableEq α]

/-- `if (n == null_node) set_child(parent, n_side, NULL)` -/
def cleanUp (H : Heap α) (nullNode : Option α) (n parent : α) (nSide : Bool) : Heap α :=
  if nullNode = some n then H.setChild parent nSide none else H

theorem Placed.cleanUp {f : Frame α} {p : Path α}
    (h : Placed nullNode n l u t) (hH : Holds H (plug (f :: p) u)) (hnd : (plug (f :: p) u).inorder.Nodup)
    (hl : ∀ z, z ∈ (plug (f :: p) u).inorder ↔ z ∈ l) :
    Holds (cleanUp H nullNode n f.x f.side) (plug (f :: p) t) ∧ (plug (f :: p) t).inorder.Nodup ∧
      Same l H (Zephyr.cleanUp H nullNode n f.x f.side) := by
  have hfx : f.x ∈ l := by rw [← hl, mem_plug]; simp [nodes]
  rcases h with ⟨hn, rfl, rfl⟩ | ⟨hn, rfl, hroot⟩
  · simp only [Zephyr.cleanUp, hn, if_true]
    obtain ⟨-, hp, -⟩ := nodup_plug.1 hnd
    refine ⟨Holds.setHole (u := .nil) hH trivial hp (by simp), nodup_plug.2 ⟨by simp, hp, by simp⟩, fun z hz => ?_⟩
    exact setChild_ne _ _ (by rintro rfl; exact hz hfx)
  · have hnl : n ∈ l := by
      rw [← hl, mem_plug]
      exact .inl (root?_mem hroot)
    simp only [Zephyr.cleanUp, hn n hnl, if_false]
    exact ⟨hH, hnd, Same.refl _ _⟩

/-! ## One round, from a black sibling on -/

section round

variable {H : Heap α} {f : Frame α} {p : Path α} {u t : ColorTree α} {nullNode : Option α}
    {n : α} (hH : Holds H (plug (f :: p) u))
  (hnd : (plug (f :: p) u).inorder.Nodup) (hpl : Placed nullNode n (plug (f :: p) u).inorder u t)

include hH hnd hpl

/-- What a round finds at its start. -/
theorem sibling_found {c₀ : Color} (hsib : f.sib = .node c₀ y ch) :
    H.getSide f.x n = f.side ∧ H.getChild f.x (!f.side) = some y ∧ Holds H (.node c₀ y ch) := by
  obtain ⟨⟨⟨hfx, hs⟩, -⟩, -⟩ := holds_plug.1 hH
  refine ⟨getSide_of (hpl.root ▸ hfx) (nodup_sib hnd hpl.mem).2, ?_, hsib ▸ hs⟩
  rw [Heap.getChild, hfx, hsib]
  simp

/-- A sibling whose outer child is red: the rotation ends the repair (rb.c:345-361). -/
theorem finish {c₀ : Color} {o : α} {cho : Bool → ColorTree α} {inn : ColorTree α}
    (hsib : f.sib = .node c₀ y (pair f.side inn (.node .red o cho))) :
    ∃ H', rotate (((H.setColor y (H.getColor f.x)).setColor f.x .black).setColor o .black) (y :: f.x :: names p) =
        some (H', f.x :: y :: names p) ∧
      Holds (cleanUp H' nullNode n f.x f.side)
        (plug p (.node f.c y (pair f.side (.node .black f.x (pair f.side t inn)) (.node .black o cho)))) ∧
      Same (plug (f :: p) u).inorder H (cleanUp H' nullNode n f.x f.side) := by
  have hin : ∀ c₁ c₂ c₃, (plug p (.node c₁ f.x
    (pair f.side u (.node c₂ y (pair f.side inn (.node c₃ o cho)))))).inorder = (plug (f :: p) u).inorder := by
    intro c₁ c₂ c₃
    simp only [plug_cons, inorder_plug, Frame.fill, inorder_pair, hsib]
    simp only [inorder_node]
  have hcol : H.getColor f.x = f.c := by
    obtain ⟨⟨⟨h, -⟩, -⟩, -⟩ := holds_plug.1 hH
    rw [Heap.getColor, h]
  rw [hcol]
  have hnd' : ∀ c₁ c₂ c₃, (plug p (.node c₁ f.x
    (pair f.side u (.node c₂ y (pair f.side inn (.node c₃ o cho)))))).inorder.Nodup :=
    fun c₁ c₂ c₃ => by rw [hin]; exact hnd
  have h1 : Holds H (plug p (.node f.c f.x (pair f.side u (.node c₀ y (pair f.side inn (.node .red o cho)))))) := by
    simpa only [plug_cons, Frame.fill, hsib] using hH
  have h2 : Holds (H.setColor y f.c) (plug p (.node f.c f.x
    (pair f.side u (.node f.c y (pair f.side inn (.node .red o cho)))))) :=
    h1.setColorAt (hnd' _ _ _) (⟨!f.side, f.c, f.x, u⟩ :: p) c₀ f.c y (pair f.side inn (.node .red o cho))
      (by simp only [plug_cons, Frame.fill, pair_swap]) (by simp only [plug_cons, Frame.fill, pair_swap])
  have h3 := h2.setColorAt (hnd' _ _ _) p f.c .black f.x _ rfl rfl
  have h4 : Holds (((H.setColor y f.c).setColor f.x .black).setColor o .black)
      (plug p (.node .black f.x (pair f.side u (.node f.c y (pair f.side inn (.node .black o cho)))))) :=
    h3.setColorAt (hnd' _ _ _) (⟨!f.side, f.c, y, inn⟩ :: ⟨!f.side, .black, f.x, u⟩ :: p) .red .black o cho
      (by simp only [plug_cons, Frame.fill, pair_swap]) (by simp only [plug_cons, Frame.fill, pair_swap])
  have hpath : plug (⟨!f.side, .black, f.x, u⟩ :: p) (.node f.c y (pair f.side inn (.node .black o cho))) =
      plug p (.node .black f.x (pair f.side u (.node f.c y (pair f.side inn (.node .black o cho))))) := by
    simp only [plug_cons, Frame.fill, pair_swap]
  obtain ⟨H', hrot, hH', hsame⟩ := rotate_spec (hpath ▸ h4) (by rw [hpath]; exact hnd' _ _ _)
  have hdown : Holds H' (plug (⟨f.side, .black, f.x, inn⟩ :: ⟨f.side, f.c, y, .node .black o cho⟩ :: p) u) := by
    simpa only [plug_cons, Frame.fill, pair_swap, pair_self, pair_not, Bool.not_not] using hH'
  have hinL : (plug (⟨f.side, .black, f.x, inn⟩ :: ⟨f.side, f.c, y, .node .black o cho⟩ :: p) u).inorder =
      (plug (f :: p) u).inorder := by
    simp only [plug_cons, inorder_plug, Frame.fill, inorder_pair, hsib]
    cases f.side <;> simp [inorder_node]
  obtain ⟨hclean, -, hsame'⟩ := hpl.cleanUp hdown (by rw [hinL]; exact hnd) (by simp [hinL])
  have hmem : y ∈ (plug (f :: p) u).inorder ∧ f.x ∈ (plug (f :: p) u).inorder ∧ o ∈ (plug (f :: p) u).inorder := by
    simp only [mem_plug, nodes, hsib, mem_cons, mem_append, mem_inorder_pair]
    simp [inorder_node]
  rw [hpath, hin] at hsame
  refine ⟨H', hrot, hclean, Same.trans ?_ (hsame.trans hsame')⟩
  exact ((Same.setColor hmem.1 _).trans (Same.setColor hmem.2.1 _)).trans (Same.setColor hmem.2.2 _)

/-- What a round leaves behind. -/
def Settled (H : Heap α) (f : Frame α) (p : Path α) (u t : ColorTree α) : Option (Round α) → Prop
  | none => False
  | some (.again H' st) => stillMissing f = true ∧ st = f.x :: names p ∧ Holds H' (plug p (mend f t)) ∧
      Same (plug (f :: p) u).inorder H H'
  | some (.done H' st) => stillMissing f = false ∧ st.getLast? = (plug p (mend f t)).root? ∧
      Holds H' (plug p (mend f t)) ∧
      Same (plug (f :: p) u).inorder H H'

/-- A sibling with two black children gives up its black (rb.c:292-316). -/
theorem settle_quiet (cap : Nat) (hsib : f.sib = .node .black y ch) (hq : quiet ch = true) :
    Settled H f p u t (settle H cap nullNode f.side n f.x (names p)) := by
  obtain ⟨-, hget, hs⟩ := sibling_found hH hnd hpl hsib
  have hred : ∀ s, H.redChild (H.getChild y s) = false := by
    intro s
    rw [Heap.getChild, hs.1, Bool.eq_false_iff, ne_eq, redChild_root (hs.2 s), ← color_ne_black, not_not]
    cases s
    · exact ((quiet_iff false).1 hq).1
    · exact ((quiet_iff true).1 hq).1
  obtain ⟨hclean, hnd', hsame⟩ := hpl.cleanUp hH hnd (fun _ => Iff.rfl)
  have h1 : Holds (cleanUp H nullNode n f.x f.side) (plug p (.node f.c f.x (pair f.side t (.node .black y ch)))) := by
    simpa only [plug_cons, Frame.fill, hsib] using hclean
  have hnd1 : (plug p (.node f.c f.x (pair f.side t (.node .black y ch)))).inorder.Nodup := by
    simpa only [plug_cons, Frame.fill, hsib] using hnd'
  have h2 : Holds ((cleanUp H nullNode n f.x f.side).setColor y .red)
      (plug p (.node f.c f.x (pair f.side t (.node .red y ch)))) :=
    h1.setColorAt hnd1 (⟨!f.side, f.c, f.x, t⟩ :: p) .black .red y ch (by simp only [plug_cons, Frame.fill, pair_swap])
      (by simp only [plug_cons, Frame.fill, pair_swap])
  have hcol : ((cleanUp H nullNode n f.x f.side).setColor y .red).getColor f.x = f.c := by
    rw [Heap.getColor, (holds_plug.1 h2).2.1]
  have hset : settle H cap nullNode f.side n f.x (names p) =
      if ((cleanUp H nullNode n f.x f.side).setColor y .red).isBlack f.x then
        some (.again ((cleanUp H nullNode n f.x f.side).setColor y .red) (f.x :: names p))
      else some (.done (((cleanUp H nullNode n f.x f.side).setColor y .red).setColor f.x .black)
        (n :: f.x :: names p)) := by
    simp only [settle, hget, bind_eq_bind, bind_some, hred, Bool.not_false, Bool.and_self, if_true]
    rfl
  have hmend : mend f t = .node .black f.x (pair f.side t (.node .red y ch)) := by simp [mend, hsib, hq]
  have hyL : y ∈ (plug (f :: p) u).inorder := by simp [mem_plug, nodes, hsib, inorder_node]
  have hfL : f.x ∈ (plug (f :: p) u).inorder := by simp [mem_plug, nodes]
  rw [hset, Heap.isBlack, hcol]
  cases hf : f.c with
  | black =>
    refine ⟨by simp [stillMissing, hsib, hq, hf], rfl, ?_, hsame.trans (Same.setColor hyL _)⟩
    rw [hmend, ← hf]; exact h2
  | red =>
    refine ⟨by simp [stillMissing, hsib, hf], ?_, ?_, (hsame.trans (Same.setColor hyL _)).trans (Same.setColor hfL _)⟩
    · rw [hmend, root_plug]; rfl
    · rw [hmend]
      refine h2.setColorAt ?_ p f.c .black f.x _ rfl rfl
      rw [inorder_plug, inorder_pair] at hnd1 ⊢
      exact hnd1

/-- **A round of `fix_missing_black` with a black sibling (rb.c:287-362)** computes `mend`. -/
theorem settle_spec (hsib : f.sib = .node .black y ch) (hd : SibsLe m (f :: p)) :
    Settled H f p u t (settle H (m + 1) nullNode f.side n f.x (names p)) := by
  by_cases hq : quiet ch = true
  · exact settle_quiet hH hnd hpl _ hsib hq
  obtain ⟨-, hget, hs⟩ := sibling_found hH hnd hpl hsib
  have hstill : stillMissing f = false := by simp [stillMissing, hsib, hq]
  have hchild : ∀ s, H.getChild y s = (ch s).root? := by intro s; rw [Heap.getChild, hs.1]
  have hloud : (!H.redChild (ch false).root? && !H.redChild (ch true).root?) = false := by
    rw [Bool.eq_false_iff, ne_eq, Bool.and_eq_true, Bool.not_eq_true', Bool.not_eq_true', Bool.eq_false_iff,
      Bool.eq_false_iff, ne_eq, ne_eq, redChild_root (hs.2 _), redChild_root (hs.2 _), ← color_ne_black,
      ← color_ne_black, not_not, not_not]
    exact fun h => hq ((quiet_iff false).2 h)
  by_cases ho : (ch !f.side).color = .red
  · cases hout : ch !f.side with
    | nil => simp [hout] at ho
    | node co o cho =>
      obtain rfl : co = .red := by simpa [hout] using ho
      have hsib' : f.sib = .node .black y (pair f.side (ch f.side) (.node .red o cho)) := by
        rw [← hout, pair_eta]
        exact hsib
      obtain ⟨H', hrot, hH', hsame⟩ := finish hH hnd hpl hsib'
      have hset : settle H (m + 1) nullNode f.side n f.x (names p) =
          some (.done (cleanUp H' nullNode n f.x f.side) (f.x :: y :: names p)) := by
        have hr : H.redChild (some o) = true := by
          have := (redChild_root (hs.2 _)).2 ho
          rwa [hout] at this
        simp only [settle, hget, bind_eq_bind, bind_some, hchild, hloud, Bool.false_eq_true, if_false, hout,
          root?_node, hr, if_true, hrot]
        rfl
      have hmend : mend f t = .node f.c y (pair f.side (.node .black f.x (pair f.side t (ch f.side)))
        (.node .black o cho)) := by
        simp [mend, hsib, hq, hout, blacken]
      rw [hset]
      exact ⟨hstill, by rw [hmend, root_plug]; simp, by rw [hmend]; exact hH', hsame⟩
  · have hi : (ch f.side).color = .red := by
      rw [← color_ne_black]
      exact fun hb => hq ((quiet_iff f.side).2 ⟨hb, by rw [← not_ne_iff, color_ne_black]; exact ho⟩)
    cases hz : ch f.side with
    | nil => simp [hz] at hi
    | node cz z chz =>
      obtain rfl : cz = .red := by simpa [hz] using hi
      -- the first rotation lifts `z` into the sibling's place, with the old sibling as its red outer child
      have hfocus : plug (⟨f.side, .black, y, ch !f.side⟩ :: ⟨!f.side, f.c, f.x, u⟩ :: p) (.node .red z chz) =
          plug (f :: p) u := by
        rw [plug_swap f, hsib, plug_cons, Frame.fill, ← hz, pair_eta]
      obtain ⟨H₁, hrot₁, hH₁, hsame₁, hne⟩ := rotate_recolor (hfocus ▸ hH) (by rw [hfocus]; exact hnd) .black .red
      rw [hfocus, setColor_comm _ hne] at hsame₁
      rw [setColor_comm _ hne] at hH₁
      have hH₂ : Holds ((H₁.setColor y .red).setColor z .black) (plug (⟨f.side, f.c, f.x, .node .black z
          (pair f.side (chz f.side) (.node .red y (pair f.side (chz !f.side) (ch !f.side))))⟩ :: p) u) := by
        rw [plug_swap]; exact hH₁
      have hin : (plug (⟨f.side, f.c, f.x, .node .black z
          (pair f.side (chz f.side) (.node .red y (pair f.side (chz !f.side) (ch !f.side))))⟩ :: p) u).inorder =
          (plug (f :: p) u).inorder := by
        have hy : ch = pair f.side (.node .red z (pair f.side (chz f.side) (chz !f.side))) (ch !f.side) := by
          rw [pair_eta, ← hz, pair_eta]
        rw [hy] at hsib
        simp only [plug_cons, inorder_plug, Frame.fill, inorder_pair, hsib]
        cases f.side <;> simp
      obtain ⟨H', hrot, hH', hsame⟩ := finish hH₂ (by rw [hin]; exact hnd) (by rw [hin]; exact hpl) rfl
      rw [hin] at hsame
      have hset : settle H (m + 1) nullNode f.side n f.x (names p) =
          some (.done (cleanUp H' nullNode n f.x f.side) (f.x :: z :: names p)) := by
        have hr : H.redChild (ch !f.side).root? = false := by
          rw [Bool.eq_false_iff, ne_eq, redChild_root (hs.2 _)]; exact ho
        have hpush : push (m + 1) (y :: f.x :: names p) z = some (z :: y :: f.x :: names p) := by
          have h1 := hd.1
          have h2 := depth_child_lt .black y ch f.side
          rw [hz] at h2
          rw [hsib] at h1
          simp only [push, length_cons, length_names]
          rw [if_pos (by omega)]
        have hget' : ((H₁.setColor y .red).setColor z .black).getChild z (!f.side) = some y := by
          have h1 : Holds _ (.node .black z _) := (holds_plug.1 hH₁).2
          rw [Heap.getChild, h1.1]
          simp
        simp only [names_cons] at hrot₁
        simp only [settle, hget, bind_eq_bind, bind_some, hchild, hloud, Bool.false_eq_true, if_false, hr, hz,
          root?_node, hpush, hrot₁, hget', hrot]
        rfl
      have hmend : mend f t = .node f.c z (pair f.side (.node .black f.x (pair f.side t (chz f.side)))
          (.node .black y (pair f.side (chz !f.side) (ch !f.side)))) := by
        simp [mend, hsib, hq, ho, hz]
      rw [hset]
      exact ⟨hstill, by rw [hmend, root_plug]; simp, by rw [hmend]; exact hH', hsame₁.trans hsame⟩

/-- A red sibling is rotated above the parent first (rb.c:276-285). -/
theorem missingBlackRound_red (hsib : f.sib = .node .red y ch) (hd : SibsLe m (f :: p)) :
    ∃ H', missingBlackRound H (m + 1) nullNode n f.x (names p) =
        settle H' (m + 1) nullNode f.side n f.x (y :: names p) ∧
      Holds H' (plug (underRed f ch :: overRed f y ch :: p) u) ∧ Same (plug (f :: p) u).inorder H H' := by
  obtain ⟨hside, hget, hs⟩ := sibling_found hH hnd hpl hsib
  have hred : H.isBlack y = false := by simp [Heap.isBlack, Heap.getColor, hs.1]
  have hfocus : plug (⟨!f.side, f.c, f.x, u⟩ :: p) (.node .red y ch) = plug (f :: p) u := by rw [plug_swap f, hsib]
  obtain ⟨H₁, hrot, hH₁, hsame, hne⟩ := rotate_recolor (hfocus ▸ hH) (by rw [hfocus]; exact hnd) .black .red
  rw [hfocus, setColor_comm _ hne] at hsame
  rw [setColor_comm _ hne] at hH₁
  have hpush : push (m + 1) (f.x :: y :: names p) n = some (n :: f.x :: y :: names p) := by
    have h1 := hd.1
    have h2 := depth_child_lt .red y ch f.side
    rw [hsib] at h1
    simp only [push, length_cons, length_names]
    rw [if_pos (by omega)]
  refine ⟨(H₁.setColor f.x .red).setColor y .black, ?_, ?_, hsame⟩
  · simp only [missingBlackRound, hside, hget, bind_eq_bind, bind_some, hred, Bool.false_eq_true, if_false, hrot,
      hpush]
  · simpa only [plug_cons, Frame.fill, underRed, overRed, pair_swap, Bool.not_not] using hH₁

theorem missingBlackRound_black (cap : Nat) (hsib : f.sib = .node .black y ch) :
    missingBlackRound H cap nullNode n f.x (names p) = settle H cap nullNode f.side n f.x (names p) := by
  obtain ⟨hside, hget, hs⟩ := sibling_found hH hnd hpl hsib
  have hblack : H.isBlack y = true := by simp [Heap.isBlack, Heap.getColor, hs.1]
  simp only [missingBlackRound, hside, hget, bind_eq_bind, bind_some, hblack, if_true]

end round

/-- **`fix_missing_black` (rb.c:257)** computes `fixBlack`, and `stack[0]` is the new root. -/
theorem fixMissingBlack_spec (p : Path α) : ∀ {H : Heap α} {u t : ColorTree α} {n : α} {k j : Nat},
    Holds H (plug p u) → (plug p u).inorder.Nodup → Placed nullNode n (plug p u).inorder u t → (t = .nil → p ≠ []) →
    Bal t k → Fits p .black (k + 1) → SibsLe m p → p.length < j →
    ∃ H' st, fixMissingBlack (m + 1) nullNode j H (n :: names p) = some (H', st) ∧ Holds H' (fixBlack p t) ∧
      st.getLast? = (fixBlack p t).root? ∧ Same (plug p u).inorder H H' := by
  induction p with
  | nil =>
    intro H u t n k fuel hH hnd hpl ht hb _ _ hfuel
    obtain ⟨fuel, rfl⟩ : ∃ f, fuel = f + 1 := ⟨fuel - 1, by simp at hfuel; omega⟩
    rcases hpl with ⟨-, -, h⟩ | ⟨-, rfl, hroot⟩
    · exact absurd rfl (ht h)
    · exact ⟨H, [n], rfl, hH, by simp [fixBlack, hroot], Same.refl _ _⟩
  | cons f p ih =>
    intro H u t n k fuel hH hnd hpl ht hb hp hd hfuel
    obtain ⟨fuel, rfl⟩ : ∃ f, fuel = f + 1 := ⟨fuel - 1, by simp at hfuel; omega⟩
    obtain ⟨cs, y, ch, hsib⟩ := hp.bal_sib.ne_nil
    cases cs with
    | black =>
      have hcol : f.sib.color = .black := by rw [hsib]; rfl
      have hround := settle_spec hH hnd hpl hsib hd
      rw [← missingBlackRound_black hH hnd hpl _ hsib] at hround
      rw [fixBlack_black hcol]
      cases hr : missingBlackRound H (m + 1) nullNode n f.x (names p) with
      | none => rw [hr] at hround; exact hround.elim
      | some r =>
        rw [hr] at hround
        cases r with
        | done H' st =>
          obtain ⟨hst, hlast, hH', hsame⟩ := hround
          rw [if_neg (by simp [hst])]
          exact ⟨H', st, by simp [fixMissingBlack, hr], hH', hlast, hsame⟩
        | again H₁ st =>
          obtain ⟨hst, rfl, hH₁, hsame⟩ := hround
          rw [if_pos hst]
          obtain ⟨k', hk', hrest⟩ := mend_bal hp hb hcol
          rw [if_pos hst] at hrest
          obtain ⟨hnd', hsub, hnull⟩ := hpl.meant hnd
          have hin : (plug p (mend f t)).inorder = (plug (f :: p) t).inorder := by
            rw [plug_cons, inorder_plug, inorder_mend, inorder_plug]
          have hroot : (mend f t).root? = some f.x := by
            simp only [stillMissing, hsib, Bool.and_eq_true] at hst
            simp [mend, hsib, hst.1]
          obtain ⟨H', st, hfix, hH', hlast, hsame'⟩ := ih (j := fuel) hH₁ (by rw [hin]; exact hnd')
            (.inr ⟨by rw [hin]; exact hnull, rfl, hroot⟩) (fun h => by simp [h] at hroot) hk' hrest.2.1 hd.2
            (by simp at hfuel; omega)
          refine ⟨H', st, by simp [fixMissingBlack, hr, hfix], hH', hlast, hsame.trans (hsame'.mono ?_)⟩
          rw [hin]; exact hsub
    | red =>
      obtain ⟨hp', -, hd', hcol⟩ := fits_underRed hp hsib hd
      obtain ⟨H₁, hround₁, hH₁, hsame₁⟩ := missingBlackRound_red hH hnd hpl hsib hd
      have hin := inorder_overRed (p := p) hsib u
      obtain ⟨cs, z, chz, hsib'⟩ := hp'.bal_sib.ne_nil
      obtain rfl : cs = .black := by simpa [underRed] using (congrArg color hsib').symm.trans hcol
      have hround := settle_spec hH₁ (by rw [hin]; exact hnd) (by rw [hin]; exact hpl) hsib' hd'
      simp only [underRed, overRed, names_cons] at hround hround₁
      rw [fixBlack_red hsib]
      rw [← hround₁] at hround
      cases hr : missingBlackRound H (m + 1) nullNode n f.x (names p) with
      | none => rw [hr] at hround; exact hround.elim
      | some r =>
        rw [hr] at hround
        cases r with
        | done H' st =>
          obtain ⟨-, hlast, hH', hsame⟩ := hround
          exact ⟨H', st, by simp [fixMissingBlack, hr], hH', hlast, hsame₁.trans (hin ▸ hsame)⟩
        | again H' st => exact absurd hround.1 (by rw [← underRed, stillMissing_underRed]; simp)

/-! ## Dropping the node -/

theorem Same.setChild {x : α} (h : x ∈ l) (s : Bool) (v : Option α) : Same l H (H.setChild x s v) :=
  fun z hz => setChild_ne s v (by rintro rfl; exact hz h)

/-- **`rb_remove` of a node with at most one child (rb.c:445-479).** -/
theorem dropNode_spec {t : RbTree α} {p : Path α} {c : Color} {x : α} {s : Bool} {tt : ColorTree α}
    (hH : Holds H (plug p (.node c x (pair s tt .nil)))) (hnd : (plug p (.node c x (pair s tt .nil))).inorder.Nodup)
    (hr : InRange t.maxDepth (plug p (.node c x (pair s tt .nil)))) :
    ∃ H' t', dropNode H t (x :: names p) = some (H', t') ∧ Holds H' (removeAt p c tt) ∧
      t'.root = (removeAt p c tt).root? ∧ InRange t'.maxDepth (removeAt p c tt) ∧
      Same (plug p (.node c x (pair s tt .nil))).inorder H H' := by
  obtain ⟨hp, hx⟩ := holds_plug.1 hH
  obtain ⟨hxc, htt, -⟩ := holds_pair.1 hx
  have hchild : (H.getChild x false).or (H.getChild x true) = tt.root? := by
    simp only [Heap.getChild, hxc]
    cases s <;> simp
  obtain ⟨b, hbal, -⟩ := hr.bal
  obtain ⟨k, hk, hfits, -⟩ := Fits.of_bal_plug hbal hr.black
  have hrange := removeAt_inRange hr
  have hred := nil_or_red hk
  have hndt : tt.inorder.Nodup ∧ x ∉ tt.inorder := by
    have := (nodup_plug.1 hnd).1
    rw [inorder_pair] at this
    cases s <;> simp [nodup_append] at this <;> tauto
  cases p with
  | nil =>
    rcases hred with rfl | hred
    · exact ⟨H, ⟨none, 0⟩, by simp [dropNode, hchild], trivial, rfl, InRange.nil 0, Same.refl _ _⟩
    · cases tt with
      | nil => simp at hred
      | node ct y ch =>
        refine ⟨H.setColor y .black, { t with root := some y }, by simp [dropNode, hchild], ?_,
          by simp [removeAt, blacken],
          hrange, Same.setColor ?_ _⟩
        · exact htt.setColorAt hndt.1 [] ct .black y ch rfl (by simp [removeAt, blacken])
        · rw [plug_nil, mem_inorder_pair]
          simp [inorder_node]
  | cons f p =>
    obtain ⟨⟨hfx, -⟩, -⟩ := hp
    have hside : H.getSide f.x x = f.side :=
      getSide_of hfx (nodup_sib hnd (by simp [mem_inorder_pair])).2
    have hndp := (nodup_plug.1 hnd).2.1
    have hfL : f.x ∈ (plug (f :: p) (.node c x (pair s tt .nil))).inorder := by simp [mem_plug, nodes]
    rcases hred with rfl | hred
    · cases c with
      | black =>
        -- the node stays as a placeholder until the first round is over
        have hleaf : (pair s .nil .nil : Bool → ColorTree α) = fun _ => .nil := by
          funext b
          cases s <;> cases b <;> rfl
        obtain ⟨k, rfl, -⟩ := id hk
        obtain rfl : k = 0 := (bal_black.1 hk).1
        rw [hleaf] at hH hnd hr ⊢
        obtain ⟨H', st, hfix, hH', hst, hsame⟩ := fixMissingBlack_spec (m := t.maxDepth) (t := .nil) (f :: p)
          (j := (x :: names (f :: p)).length + 1) hH hnd (.inl ⟨rfl, rfl, rfl⟩) (by simp) rfl hfits
          (depth_plug_le.1 hr.depth).2 (by simp)
        have hrem : removeAt (f :: p) .black (.nil : ColorTree α) = fixBlack (f :: p) .nil := by simp [removeAt]
        rw [hrem] at hrange ⊢
        refine ⟨H', { t with root := st.getLast? }, ?_, hH', hst, hrange, hsame⟩
        simp only [names_cons, length_cons, length_names] at hfix
        simp [dropNode, hchild, Heap.isBlack, Heap.getColor, hxc, hfix]
      | red =>
        refine ⟨H.setChild f.x f.side none, { t with root := (x :: f.x :: names p).getLast? }, ?_, ?_, ?_, hrange,
          Same.setChild hfL _ _⟩
        · simp [dropNode, hchild, Heap.isBlack, Heap.getColor, hxc, hside]
        · have := Holds.setHole (u := .nil) hH trivial hndp (by simp)
          simpa [removeAt, blacken] using this
        · simp only [removeAt, true_or, or_true, if_true, plug_cons, Frame.fill, root_plug]
          rfl
    · cases tt with
      | nil => simp at hred
      | node ct y ch =>
        obtain rfl : ct = .red := hred
        have h1 : Holds (H.setChild f.x f.side (some y)) (plug (f :: p) (.node .red y ch)) := by
          refine Holds.setHole (u := .node .red y ch) hH htt hndp fun hm => ?_
          have := (nodup_plug.1 hnd).2.2 f.x (mem_inorder_pair.2 (by simp [hm]))
          simp [nodes] at this
        have hnd1 : (plug (f :: p) (.node .red y ch)).inorder.Nodup :=
          nodup_plug.2 ⟨hndt.1, hndp, fun z hz => (nodup_plug.1 hnd).2.2 z (mem_inorder_pair.2 (by simp [hz]))⟩
        have h2 := h1.setColor (d := .black) hnd1
        have hrem : removeAt (f :: p) c (.node .red y ch) = plug (f :: p) (.node .black y ch) := by
          simp [removeAt, blacken]
        rw [hrem] at hrange ⊢
        refine ⟨(H.setChild f.x f.side (some y)).setColor y .black,
          { t with root := (x :: f.x :: names p).getLast? }, ?_, h2, ?_,
          hrange, (Same.setChild hfL _ _).trans (Same.setColor ?_ _)⟩
        · have hyr : (H.setChild f.x f.side (some y)).isRed y = true := by
            rw [Heap.isRed, Heap.getColor, (holds_plug.1 h1).2.1]
            rfl
          simp [dropNode, hchild, hside, hyr]
        · rw [plug_cons, Frame.fill, root_plug]; rfl
        · rw [mem_plug, mem_inorder_pair]; simp [inorder_node]

/-! ## The node changes places with its predecessor -/

theorem limb_eq : ∀ {c y ch} (p : Path α) (room : Nat), t = .node c y ch → Holds H t →
    t.depth ≤ room + 1 → limb H room (y :: names p) = some (stackOf (endPath true t p)) := by
  induction t with
  | nil => intro _ _ _ _ _ h; simp at h
  | node c y ch ih =>
    rintro _ _ _ p room ⟨⟩ ⟨hy, hch⟩ hd
    have hdc := depth_child_lt c y ch true
    have hget : H.getChild y true = (ch true).root? := by rw [Heap.getChild, hy]
    unfold limb
    cases hc : ch true with
    | nil => simp [hget, hc, endPath, stackOf]
    | node c' z ch' =>
      rw [hc] at hdc
      cases room with
      | zero => simp [depth] at hdc hd; omega
      | succ room =>
        have := ih true (⟨true, c, y, ch false⟩ :: p) room hc (hch _) (by rw [hc]; omega)
        simp only [hget, hc, root?_node, endPath, Bool.not_true]
        rw [hc] at this
        exact this

/-- The writes to the two nodes themselves (rb.c:417-443); `v` becomes the left child of `node2`. -/
def exchange (H : Heap α) (node node2 : α) (v : Option α) : Heap α :=
  let H := H.setChild node false (H.getChild node2 false)
  let H := H.setChild node2 false v
  let H := H.setChild node2 true (H.getChild node true)
  let H := H.setChild node true none
  let ctmp := H.getColor node
  let H := H.setColor node (H.getColor node2)
  H.setColor node2 ctmp

theorem exchange_spec {x : α} {a b l r v : Option α} {c c' : Color} (hne : x ≠ y)
    (hx : H x = ⟨pair false a b, c⟩) (hy : H y = ⟨pair false l r, c'⟩) :
    exchange H x y v x = ⟨pair false l none, c'⟩ ∧ exchange H x y v y = ⟨pair false v b, c⟩ ∧
      ∀ z, z ≠ x → z ≠ y → exchange H x y v z = H z := by
  have hl : ∀ a b v : Option α, update (pair false a b) false v = pair false v b :=
    fun a b v => update_pair_self false a b v
  have hr : ∀ a b v : Option α, update (pair false a b) true v = pair false a v :=
    fun a b v => update_pair_not false a b v
  refine ⟨?_, ?_, fun z hzx hzy => ?_⟩
  · simp [exchange, Heap.setChild, Heap.setColor, Heap.getChild, Heap.getColor, hne, hne.symm, hx, hy, hl, hr]
  · simp [exchange, Heap.setChild, Heap.setColor, Heap.getChild, Heap.getColor, hne, hne.symm, hx, hy, hl, hr]
  · simp [exchange, Heap.setChild, Heap.setColor, hzx, hzy]

/-- The writes of `swapDown`: the parents of the two nodes, then the nodes themselves. -/
theorem swapDown_eq {cap : Nat} {root : Option α} {x left : α} {rest mid stack : List α}
    (hget : H.getChild x false = some left) (hpush : push cap (x :: rest) left = some stack)
    (hlimb : limb H (cap - stack.length) [left] = some (y :: mid)) (hx : x ∉ mid) :
    swapDown H cap root x rest = some (exchange (redirect (redirect H rest x y) mid y x) x y
          (if mid = [] then some x else (redirect (redirect H rest x y) mid y x).getChild x false),
        if rest = [] then some y else root, x :: (mid ++ y :: rest)) := by
  simp only [swapDown, hget, bind_eq_bind, bind_some, hpush, hlimb]
  cases mid with
  | nil => cases rest <;> simp only [headD_nil, reduceCtorEq, if_true, if_false] <;> rfl
  | cons lo mid =>
    have hne : lo ≠ x := fun e => hx (by simp [e])
    cases rest <;> simp only [headD_cons, hne, reduceCtorEq, if_true, if_false] <;> rfl

/-- `node` and its predecessor change places (rb.c:384-443). -/
theorem swapDown_spec {p q : Path α} {c c' : Color} {x : α} {ch' : Bool → ColorTree α}
    (hH : Holds H (plug p (.node c x ch))) (hnd : (plug p (.node c x ch)).inorder.Nodup)
    (hd : (plug p (.node c x ch)).depth ≤ m) (he : endPath true (ch false) [] = (q, .node c' y ch'))
    (hq : plug q (.node c' y ch') = ch false) (hn : ch' true = .nil) :
    ∃ H', swapDown H (m + 1) (plug p (.node c x ch)).root? x (names p) = some (H',
        (plug (q ++ ⟨false, c, y, ch true⟩ :: p) (.node c' x (pair false (ch' false) .nil))).root?,
        x :: names (q ++ ⟨false, c, y, ch true⟩ :: p)) ∧
      Holds H' (plug (q ++ ⟨false, c, y, ch true⟩ :: p) (.node c' x (pair false (ch' false) .nil))) ∧
      Same (plug p (.node c x ch)).inorder H H' := by
  -- the same tree seen from `y`
  have hfocus : plug (q ++ ⟨false, c, x, ch true⟩ :: p) (.node c' y ch') = plug p (.node c x ch) := by
    rw [plug_append, hq, plug_cons, Frame.fill]
    exact congrArg (fun k => plug p (.node c x k)) (pair_eta false ch)
  rw [← hfocus] at hH hnd
  obtain ⟨har, hy, hch'⟩ := holds_plug.1 hH
  obtain ⟨hnt, hnp, hdis⟩ := nodup_plug.1 hnd
  obtain ⟨harq, ⟨hx, hright⟩, harp⟩ := around_append.1 har
  simp only [nodes_append, nodes, nodup_append, nodup_cons, mem_append, mem_cons, not_or] at hnp hdis
  obtain ⟨hnq, ⟨⟨hxr, hxp⟩, -, hnp', hrp⟩, hqx⟩ := hnp
  have hyd := hdis y (by simp [inorder_node])
  have hyx : x ≠ y := Ne.symm hyd.2.1
  have hxq : x ∉ nodes q := fun hm => hqx x hm x (.inl rfl) rfl
  have hnamp := names_subset p
  have hnamq := names_subset q
  -- the nodes above take note, then the two nodes themselves
  obtain ⟨har₁, hs₁⟩ := harp.redirect (y := y) hnp' hxp
  have harq₁ : Around (redirect H (names p) x y) q (some y) := harq.congr fun z hz => hs₁ z fun hm =>
    hqx z hz z (.inr (.inr (hnamp z hm))) rfl
  obtain ⟨har₂, hs₂⟩ := harq₁.redirect (y := x) hnq hyd.1
  generalize hH₂ : redirect (redirect H (names p) x y) (names q) y x = H₂ at har₂ hs₂
  have hout : ∀ z, z ∉ names p → z ∉ names q → H₂ z = H z := fun z h1 h2 => (hs₂ z h2).trans (hs₁ z h1)
  have hx₂ : H₂ x = ⟨pair false (topOf q (some y)) (ch true).root?, c⟩ := by
    rw [hout x (fun hm => hxp (hnamp x hm)) (fun hm => hxq (hnamq x hm)), hx]; rfl
  have hy₂ : H₂ y = ⟨pair false (ch' false).root? none, c'⟩ := by
    rw [hout y (fun hm => hyd.2.2.2 (hnamp y hm)) (fun hm => hyd.1 (hnamq y hm)), hy]
    congr 1
    funext s
    cases s <;> simp [hn]
  obtain ⟨h1, h2, h3⟩ := exchange_spec (v := topOf q (some x)) hyx hx₂ hy₂
  refine ⟨exchange H₂ x y (topOf q (some x)), ?_, ?_, ?_⟩
  · cases hl : ch false with
    | nil => rw [hl] at hq; have := root_plug q c' y ch'; rw [hq] at this; simp [List.getLast?_cons] at this
    | node c₀ w ch₀ =>
      have htop : topOf q (some y) = some w := by
        rw [← root?_node c' y ch', ← root_plug_topOf, hq, hl]
        rfl
      have hget : H.getChild x false = some w := by rw [Heap.getChild, hx]; exact htop
      have hdw : (ch false).depth + 1 ≤ m - p.length := by
        have := (depth_plug_le.1 hd).1
        have hlt := depth_child_lt c x ch false
        omega
      have hpush : push (m + 1) (x :: names p) w = some (w :: x :: names p) := by
        simp only [push, length_cons, length_names]
        rw [if_pos (by omega)]
      have hlimb : limb H (m + 1 - (w :: x :: names p).length) [w] = some (y :: names q) := by
        have hH' : Holds H (ch false) := by rw [← hq]; exact holds_plug.2 ⟨harq, hy, hch'⟩
        have := limb_eq [] (m + 1 - (w :: x :: names p).length) hl hH' (by simp; omega)
        rwa [he] at this
      have htmp : H₂.getChild x false = some w := by rw [Heap.getChild, hx₂]; exact htop
      have hroot : (plug (q ++ ⟨false, c, y, ch true⟩ :: p) (.node c' x (pair false (ch' false) .nil))).root? =
          (y :: names p).getLast? := by
        rw [root_plug, names_append, ← cons_append, List.getLast?_append, names_cons, List.getLast?_cons]
        rfl
      have hv : (if names q = [] then some x else H₂.getChild x false) = topOf q (some x) := by
        cases q with
        | nil => rfl
        | cons lo q => exact htmp.trans htop.symm
      rw [swapDown_eq hget hpush hlimb (fun hm => hxq (hnamq x hm)), hH₂, hv, hroot, names_append, names_cons,
        root_plug]
      cases p <;> simp [names]
  · refine holds_plug.2 ⟨around_append.2 ⟨?_, ⟨h2, ?_⟩, ?_⟩, holds_pair.2 ⟨h1, ?_, trivial⟩⟩
    · exact har₂.congr fun z hz => h3 z (by rintro rfl; exact hxq hz) (by rintro rfl; exact hyd.1 hz)
    · refine hright.congr fun z hz => ?_
      rw [h3 z (by rintro rfl; exact hxr hz) (by rintro rfl; exact hyd.2.2.1 hz)]
      exact hout z (fun hm => hrp z hz z (hnamp z hm) rfl) (fun hm => hqx z (hnamq z hm) z (.inr (.inl hz)) rfl)
    · refine har₁.congr fun z hz => ?_
      rw [h3 z (by rintro rfl; exact hxp hz) (by rintro rfl; exact hyd.2.2.2 hz)]
      exact hs₂ z fun hm => hqx z (hnamq z hm) z (.inr (.inr hz)) rfl
    · refine (hch' false).congr fun z hz => ?_
      have hzd := hdis z (by simp [inorder_node, hz])
      have hzy : z ≠ y := by rintro rfl; exact not_mem_child hnt false hz
      rw [h3 z hzd.2.1 hzy]
      exact hout z (fun hm => hzd.2.2.2 (hnamp z hm)) (fun hm => hzd.1 (hnamq z hm))
  · intro z hz
    rw [← hfocus, mem_plug, nodes_append] at hz
    simp only [nodes, inorder_node, mem_append, mem_cons, not_or] at hz
    rw [h3 z hz.2.2.1 hz.1.2.1]
    exact hout z (fun hm => hz.2.2.2.2 (hnamp z hm)) (fun hm => hz.2.1 (hnamq z hm))

/-! ## Removal -/

/-- `rb_remove` past the search computes `removeNode`. -/
theorem remove_found {t : RbTree α} {p : Path α} {c : Color} {x : α} (h : RbRep H t (plug p (.node c x ch))) :
    ∃ H' t', (if (H.getChild x false).isSome && (H.getChild x true).isSome then do
          let (H, root, stack) ← swapDown H (t.maxDepth + 1) t.root x (names p)
          dropNode H { t with root := root } stack
        else dropNode H t (x :: names p)) = some (H', t') ∧
      Holds H' (removeNode p c ch) ∧ t'.root = (removeNode p c ch).root? ∧ InRange t'.maxDepth (removeNode p c ch) ∧
      Same (plug p (.node c x ch)).inorder H H' := by
  have hchild : ∀ s, H.getChild x s = (ch s).root? := by
    intro s
    rw [Heap.getChild, (holds_plug.1 h.holds).2.1]
  have hone : ∀ s, ch (!s) = .nil → ∃ H' t', dropNode H t (x :: names p) = some (H', t') ∧
    Holds H' (removeAt p c (ch s)) ∧
      t'.root = (removeAt p c (ch s)).root? ∧ InRange t'.maxDepth (removeAt p c (ch s)) ∧
      Same (plug p (.node c x ch)).inorder H H' := by
    intro s hs
    have hpair : pair s (ch s) .nil = ch := by rw [← hs, pair_eta]
    have := @dropNode_spec α H _ t p c x s (ch s)
    rw [hpair] at this
    exact this h.holds h.nodup h.range
  unfold removeNode
  rw [hchild, hchild]
  cases h0 : (ch false).root? with
  | none =>
    simp only [isSome_none, Bool.false_and, Bool.false_eq_true, if_false]
    exact hone true (root?_eq_none.1 h0)
  | some a =>
    cases h1 : (ch true).root? with
    | none =>
      simp only [isSome_none, Bool.and_false, Bool.false_eq_true, if_false]
      exact hone false (root?_eq_none.1 h1)
    | some b =>
      have hne : ch false ≠ .nil := fun e => by simp [e] at h0
      obtain ⟨q, c', y, ch', e, hq, hn, -⟩ := endPath_spec (s := true) [] hne
      rw [append_nil] at e
      obtain ⟨H₁, hswap, hH₁, hsame₁⟩ := swapDown_spec h.holds h.nodup h.range.depth e hq hn
      have hperm := exchange_perm (p := p) (c := c) (x := x) hq hn
      obtain ⟨H', t', hdrop, hH', hroot, hrange, hsame⟩ := dropNode_spec
        (t := ⟨(plug (q ++ ⟨false, c, y, ch true⟩ :: p) (.node c' x (pair false (ch' false) .nil))).root?,
          t.maxDepth⟩) hH₁
        (hperm.nodup_iff.2 h.nodup) (h.range.exchange hq hn)
      simp only [e, isSome_some, Bool.and_self, if_true]
      refine ⟨H', t', ?_, hH', hroot, hrange, hsame₁.trans (hsame.mono fun z hz => hperm.mem_iff.1 hz)⟩
      rw [h.root, hswap]
      exact hdrop

theorem rbRemove_eq {t : RbTree α} {x root top : α} {rest : List α} (hroot : t.root = some root)
    (hfind : findAndStack lt H root x (t.maxDepth + 1) = some (top :: rest)) :
    rbRemove lt H t x = if top ≠ x then some (H, t)
      else if (H.getChild x false).isSome && (H.getChild x true).isSome then do
        let (H, root, stack) ← swapDown H (t.maxDepth + 1) t.root x rest
        dropNode H { t with root := root } stack
      else dropNode H t (x :: rest) := by
  obtain ⟨r, m⟩ := t
  obtain rfl : r = some root := hroot
  simp only [rbRemove, bind_eq_bind, bind_some, hfind]

/-- **`rb_remove` (rb.c:370)** of a node that the comparisons lead to. -/
theorem rbRemove_found {t : RbTree α} {x : α} {p : Path α} {c : Color} (h : RbRep H t T)
    (hloc : locate lt x T [] = (p, .node c x ch)) (hT : plug p (.node c x ch) = T) :
    ∃ H' t' T', rbRemove lt H t x = some (H', t') ∧ RbRep H' t' T' ∧
      T'.inorder = before p ++ (ch false).inorder ++ (ch true).inorder ++ after p ∧ Same T.inorder H H' := by
  subst hT
  obtain ⟨H', t', hrem, hH', hroot', hrange, hsame⟩ := remove_found h
  have hin := (removeNode_spec h.range).2
  refine ⟨H', t', _, ?_, ⟨hH', hroot', hrange, ?_⟩, hin, hsame⟩
  · have hroot := root_plug p c x ch
    rw [List.getLast?_cons] at hroot
    have hfind := findAndStack_eq lt h.holds hroot h.range.depth x
    rw [hloc] at hfind
    rw [rbRemove_eq (h.root.trans hroot) hfind, if_neg (by simp)]
    exact hrem
  · rw [hin]
    refine List.Nodup.sublist ?_ h.nodup
    rw [inorder_plug, inorder_node]
    simp

/-- A node that the comparisons do not lead to stays where it is. -/
theorem rbRemove_missed {t : RbTree α} {x : α} {p : Path α}
    (h : RbRep H t T) (hne : T ≠ .nil) (hloc : locate lt x T [] = (p, .nil)) : rbRemove lt H t x = some (H, t) := by
  obtain ⟨q, r, e, hT, hs, -⟩ := locate_spec lt x (t := T) []
  rw [append_nil] at e
  obtain ⟨rfl, rfl⟩ : p = q ∧ .nil = r := Prod.mk.inj (hloc.symm.trans e)
  subst hT
  cases p with
  | nil => simp at hne
  | cons f p =>
    have hroot := root_plug p f.c f.x (pair f.side .nil f.sib)
    rw [List.getLast?_cons] at hroot
    have hfind := findAndStack_eq lt h.holds hroot h.range.depth x
    rw [hloc] at hfind
    rw [rbRemove_eq (h.root.trans hroot) hfind, if_pos (hs f (by simp)).1]

/-- From a tree that the comparison with its node `x` cuts in two, `rb_remove` takes `x`. -/
theorem rbRemove_spec {t : RbTree α} {x : α} {A B : List α}
    (h : RbRep H t T) (hT : T.inorder = A ++ x :: B) (hA : ∀ a ∈ A, lt x a = false) (hB : ∀ b ∈ B, lt x b = true) :
    ∃ H' t' T', rbRemove lt H t x = some (H', t') ∧ RbRep H' t' T' ∧ T'.inorder = A ++ B ∧ Same T.inorder H H' := by
  obtain ⟨p, c, ch, hloc, hp, rfl, rfl⟩ := locate_mem lt [] hA hB hT h.nodup
  rw [append_nil] at hloc
  obtain ⟨H', t', T', hrem, hrep, hin, hsame⟩ := rbRemove_found h hloc hp
  exact ⟨H', t', T', hrem, hrep, by rw [hin]; simp, hsame⟩

end Zephyr
