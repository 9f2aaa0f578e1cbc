import Zephyr.Lib.RedBlack.Basic
/-!
# Repairing a red node below a red node

`fixRed p t` is the bottom-up repair after a red tree `t` has come to stand at `p`: it recolours two
levels at a time while the aunt is red, and otherwise rotates once or twice and is done.

`InRange m t` is what insertion and removal keep: a red-black tree no deeper than `m`, with `m` at
least twice its black height less one. The second half is what later removals live on.
-/
namespace RedBlack

open ColorTree RedBlack.Path

variable {α : Type*}

/-- A red-black tree for which a scratch stack of `m` entries is enough, now and after removals. -/
structure InRange (m : Nat) (t : ColorTree α) : Prop where
  black : t.color = .black
  depth : t.depth ≤ m
  bal : ∃ n, Bal t n ∧ 2 * n ≤ m + 1

theorem InRange.nil (m : Nat) : InRange m (ColorTree.nil : ColorTree α) := ⟨rfl, by simp, 0, rfl, by omega⟩

/-- The subtree that replaces grandparent `g`, parent `p` and red node `t` when the aunt is black. -/
def rotRed (p g : Frame α) (t : ColorTree α) : ColorTree α :=
  if p.side = g.side then
    node .black p.x (pair g.side t (node .red g.x (pair g.side p.sib g.sib)))
  else match t with
    | .nil => .nil
    | node _ x ch => node .black x (pair g.side (node .red p.x (pair g.side p.sib (ch g.side)))
        (node .red g.x (pair g.side (ch p.side) g.sib)))

def fixRed : Path α → ColorTree α → ColorTree α
  | [], t => t.blacken
  | [p], t => plug [p] t
  | p :: g :: path, t =>
    if p.c = .black then plug (p :: g :: path) t
    else if g.sib.color = .red then
      fixRed path (node .red g.x (pair g.side (node .black p.x (pair p.side t p.sib)) g.sib.blacken))
    else plug path (rotRed p g t)

variable {p q : Path α} {f g : Frame α} {t : ColorTree α}

/-- Above a red node in a hole that wants a black one: nothing, a black node, or a red and a black one. -/
theorem Path.Fits.cases_up {n : Nat} (h : Fits p .black n) :
    p = [] ∨ (∃ f q, p = f :: q ∧ f.c = .black) ∨
      ∃ f g q, p = f :: g :: q ∧ f.c = .red ∧ g.c = .black ∧ Bal f.sib n ∧ f.sib.color = .black ∧ Bal g.sib n ∧
        Fits q .black (n + 1) := by
  cases p with
  | nil => exact .inl rfl
  | cons f q =>
    refine .inr ?_
    cases hf : f.c with
    | black => exact .inl ⟨f, q, rfl, hf⟩
    | red =>
      obtain ⟨-, hs, hb, hp⟩ := h.cons_red hf
      obtain ⟨g, q', rfl, hg, hgs, hq⟩ := hp.exists_cons
      exact .inr ⟨f, g, q', rfl, hf, hg, hb, hs, hgs, hq⟩

theorem fixRed_of_black (hf : f.c = .black) (t : ColorTree α) : fixRed (f :: q) t = plug (f :: q) t := by
  cases q with
  | nil => rfl
  | cons g q => simp [fixRed, hf]

theorem fixRed_recolor (hf : f.c = .red) (hg : g.sib.color = .red) (t : ColorTree α) :
    fixRed (f :: g :: q) t =
      fixRed q (node .red g.x (pair g.side (node .black f.x (pair f.side t f.sib)) g.sib.blacken)) := by
  simp [fixRed, hf, hg]

theorem fixRed_rotate (hf : f.c = .red) (hg : g.sib.color = .black) (t : ColorTree α) :
    fixRed (f :: g :: q) t = plug q (rotRed f g t) := by
  simp [fixRed, hf, hg]

/-! ## The rotation -/

theorem inorder_rotRed {p : Frame α} (ht : t.color = .red) : (rotRed p g t).inorder = (g.fill (p.fill t)).inorder := by
  cases t with
  | nil => simp at ht
  | node c x ch =>
    cases hp : p.side <;> cases hg : g.side <;> simp [rotRed, hp, hg, Frame.fill, inorder_node]

theorem bal_rotRed {p : Frame α} {n : Nat} (ht : Bal t n) (hc : t.color = .red) (hp : Bal p.sib n)
    (hpc : p.sib.color = .black) (hg : Bal g.sib n) (hgc : g.sib.color = .black) :
    Bal (rotRed p g t) (n + 1) ∧ (rotRed p g t).color = .black := by
  cases t with
  | nil => simp at hc
  | node c x ch =>
    obtain rfl : c = .red := hc
    by_cases hs : p.side = g.side
    · simp only [rotRed, hs, if_true, color_node, and_true]
      exact bal_black.2 ⟨ht, bal_red.2 ⟨⟨hp, hpc⟩, hg, hgc⟩⟩
    · simp only [rotRed, hs, if_false, color_node, and_true]
      exact bal_black.2 ⟨bal_red.2 ⟨⟨hp, hpc⟩, ht _⟩, bal_red.2 ⟨ht _, hg, hgc⟩⟩

/-- The rotation lifts `t` and lowers only the aunt. -/
theorem depth_rotRed {p : Frame α} (ht : t.color = .red) {k : Nat} (h1 : t.depth + 1 ≤ k)
    (h2 : p.sib.depth + 2 ≤ k) (h3 : g.sib.depth + 2 ≤ k) : (rotRed p g t).depth ≤ k := by
  cases t with
  | nil => simp at ht
  | node c x ch =>
    have hf := depth_child_lt c x ch g.side
    have hp := depth_child_lt c x ch p.side
    by_cases hs : p.side = g.side
    · simp only [rotRed, hs, if_true]
      refine depth_pair_le.2 ⟨h1, ?_⟩
      have : (node Color.red g.x (pair g.side p.sib g.sib)).depth ≤ k - 1 := depth_pair_le.2 ⟨by omega, by omega⟩
      omega
    · simp only [rotRed, hs, if_false]
      have hl : (node Color.red p.x (pair g.side p.sib (ch g.side))).depth ≤ k - 1 :=
        depth_pair_le.2 ⟨by omega, by omega⟩
      have hr : (node Color.red g.x (pair g.side (ch p.side) g.sib)).depth ≤ k - 1 :=
        depth_pair_le.2 ⟨by omega, by omega⟩
      exact depth_pair_le.2 ⟨by omega, by omega⟩

/-! ## The whole repair -/

theorem fixRed_inorder (p : Path α) : ∀ {t : ColorTree α} {n : Nat}, t.color = .red → Fits p .black n →
    (fixRed p t).inorder = (plug p t).inorder := by
  induction hlen : p.length using Nat.strong_induction_on generalizing p with
  | _ len ih =>
    intro t n ht hp
    rcases hp.cases_up with rfl | ⟨f, q, rfl, hf⟩ | ⟨f, g, q, rfl, hf, hg, hb, hs, hgs, hq⟩
    · simp [fixRed]
    · rw [fixRed_of_black hf]
    · cases ha : g.sib.color with
      | red =>
        rw [fixRed_recolor hf ha, ih q.length (by simp at hlen; omega) q rfl rfl hq, inorder_plug, plug_cons, plug_cons,
          inorder_plug]
        congr 2
        simp [Frame.fill, inorder_pair]
      | black => rw [fixRed_rotate hf ha, plug_cons, plug_cons, inorder_plug, inorder_rotRed ht, inorder_plug]

/-- `t` stands `length p` levels down, has black height `n`, and is what a chain of recolourings from
a new leaf has left: the way from the root through it to that leaf has `length p + 2 * n + 1` nodes. -/
theorem fixRed_inRange (p : Path α) : ∀ {t : ColorTree α} {n m : Nat}, Bal t n → t.color = .red → Fits p .black n →
    (plug p t).depth ≤ m → p.length + 2 * n + 1 ≤ m → 2 * (n + blacks p) ≤ m + 1 → InRange m (fixRed p t) := by
  induction hlen : p.length using Nat.strong_induction_on generalizing p with
  | _ len ih =>
    intro t n m ht hc hp hd hway hbl
    subst hlen
    rcases hp.cases_up with rfl | ⟨f, q, rfl, hf⟩ | ⟨f, g, q, rfl, hf, hg, hb, hs, hgs, hq⟩
    · refine ⟨by simp [fixRed], by simpa [fixRed] using hd, n + 1, ht.blacken_red hc, ?_⟩
      simp at hway; omega
    · rw [fixRed_of_black hf]
      obtain ⟨hbal, hcol⟩ := (hp.of_black hf .red).bal_plug ht hc
      exact ⟨hcol, hd, _, hbal, hbl⟩
    · have hbl' : n + 1 + blacks q = n + blacks (f :: g :: q) := by simp [blacks, hf, hg]; omega
      rw [plug_cons, plug_cons] at hd
      obtain ⟨hd1, hd2⟩ := depth_plug_le.1 hd
      have hd3 : (g.fill (f.fill t)).depth ≤ m - q.length := by omega
      obtain ⟨hf3, hg3⟩ := depth_pair_le.1 hd3
      have hf4 : (f.fill t).depth ≤ m - q.length - 1 := by omega
      obtain ⟨ht4, hs4⟩ := depth_pair_le.1 hf4
      simp only [List.length_cons] at hway
      cases ha : g.sib.color with
      | red =>
        rw [fixRed_recolor hf ha]
        refine ih q.length (by simp only [List.length_cons]; omega) q rfl ?_ rfl hq ?_ (by omega) (by omega)
        · exact bal_red.2 ⟨⟨bal_black.2 ⟨ht, hb⟩, rfl⟩, hgs.blacken_red ha, by simp⟩
        · refine depth_plug_le.2 ⟨?_, hd2⟩
          have h1 : (node Color.black f.x (pair f.side t f.sib)).depth ≤ m - q.length - 1 := depth_pair_le.2 ⟨ht4, hs4⟩
          have h2 : (node Color.red g.x (pair g.side
            (node Color.black f.x (pair f.side t f.sib)) g.sib.blacken)).depth ≤
              m - q.length := depth_pair_le.2 ⟨by omega, by simpa using hg3⟩
          omega
      | black =>
        rw [fixRed_rotate hf ha]
        obtain ⟨hbal, hcol⟩ := bal_rotRed ht hc hb hs hgs ha
        obtain ⟨hbal', hcol'⟩ := hq.bal_plug hbal hcol
        -- the aunt goes one level down, but is no deeper than twice its black height
        have haunt := hgs.depth_le.2 ha
        have hrot : (rotRed f g t).depth ≤ m - q.length := depth_rotRed hc (by omega) (by omega) (by omega)
        exact ⟨hcol', depth_plug_le.2 ⟨by omega, hd2⟩, _, hbal', by omega⟩

/-! ## A new leaf -/

def leaf (x : α) : ColorTree α := node .red x fun _ => .nil

/-- `x` put into the empty position at `p`. -/
def insertAt (p : Path α) (x : α) : ColorTree α := fixRed p (leaf x)

theorem bal_leaf (x : α) : Bal (leaf x) 0 := fun _ => ⟨rfl, rfl⟩

theorem inorder_insertAt {m : Nat} (h : InRange m (plug p .nil)) (x : α) :
    (insertAt p x).inorder = before p ++ x :: after p := by
  obtain ⟨n, hb, -⟩ := h.bal
  obtain ⟨k, rfl, hp, -⟩ := Fits.of_bal_plug hb h.black
  rw [insertAt, fixRed_inorder p rfl hp, inorder_plug]
  simp [leaf, inorder_node]

/-- **Insertion.** The bound grows to the length of the way to the new leaf when that is longer. -/
theorem insertAt_inRange {m : Nat} (h : InRange m (plug p .nil)) (x : α) :
    InRange (max m (p.length + 1)) (insertAt p x) := by
  obtain ⟨n, hb, hn⟩ := h.bal
  obtain ⟨k, rfl, hp, hk⟩ := Fits.of_bal_plug hb h.black
  obtain ⟨-, hs⟩ := depth_plug_le.1 (h.depth.trans (le_max_left m (p.length + 1)))
  refine fixRed_inRange p (bal_leaf x) rfl hp (depth_plug_le.2 ⟨?_, hs⟩) ?_ ?_
  · have : (leaf x).depth = 1 := by simp [leaf, depth]
    rw [this]; exact le_max_right _ _
  · exact le_max_right _ _
  · omega

end RedBlack
