import Zephyr.Misc.Rb
/-!
# `rbtree`: memory holds a tree

`Holds H t`: every node of `t` is in memory with its colour and its children's addresses. `Around H p q`
is the same for a path whose hole holds the address `q`. Each function of the code is matched with the
function on trees and paths it computes; memory outside the tree is not touched (`Same`).
-/
namespace Zephyr

open RedBlack RedBlack.ColorTree RedBlack.Path Function Option

/-! ## Packed and unpacked nodes -/

namespace Word

variable {w : Nat}

/-- An address, 0 for `NULL`. -/
def ptr (a : BitVec w) : Option (BitVec w) := if a = 0#w then none else some a

def view (n : Word w) : RbNode (BitVec w) := ⟨fun side => ptr (n.getChild side), n.getColor⟩

theorem or_fields {a b : BitVec w} (ha : a &&& 1#w = 0#w) (hb : b &&& ~~~1#w = 0#w) :
    (a ||| b) &&& ~~~1#w = a ∧ (a ||| b) &&& 1#w = b := by
  constructor
  all_goals
    ext i hi
    have h1 := congrArg (·.getLsbD i) ha
    have h2 := congrArg (·.getLsbD i) hb
    simp at h1 h2 ⊢
    grind

/-- **`set_child` (rb.c:33)** with an even address writes the child and keeps the colour. -/
theorem view_setChild (n : Word w) (side : Bool) {val : BitVec w} (hv : val &&& 1#w = 0#w) :
    (n.setChild side val).view = { n.view with child := update n.view.child side (ptr val) } := by
  have hor := or_fields hv (show n.children false &&& 1#w &&& ~~~1#w = 0#w by simp [BitVec.and_assoc])
  have hc : (n.setChild side val).getColor = n.getColor := by
    cases side <;> simp [setChild, getColor, hor]
  have hk : (fun s => ptr ((n.setChild side val).getChild s)) = update n.view.child side (ptr val) := by
    funext b
    cases side <;> cases b <;> simp [setChild, getChild, view, hor]
  simp only [view, hc, RbNode.mk.injEq, and_true]
  exact hk

/-- **`set_color` (rb.c:62)** writes the colour and keeps the children. -/
theorem view_setColor (n : Word (w + 1)) (color : Color) :
    (n.setColor color).view = { n.view with color := color } := by
  have hor := or_fields (a := n.children false &&& ~~~1#(w + 1)) (b := ofColor color)
    (by simp [BitVec.and_assoc]) (by cases color <;> simp [ofColor])
  have hk : (fun side => ptr ((n.setColor color).getChild side)) = n.view.child := by
    funext b
    cases b <;> simp [setColor, getChild, view, hor]
  have hc : (n.setColor color).getColor = color := by
    simp only [setColor, getColor, update_self, hor]
    cases color <;> simp [ofColor]
  simp only [view, hc, RbNode.mk.injEq, and_true]
  exact hk

end Word

/-- `set_child` with `NULL` or an address, which is even, or `set_color`. -/
inductive RbWrite (w : Nat) where
  | child (n : BitVec (w + 1)) (side : Bool) (val : { a : BitVec (w + 1) // a &&& 1#(w + 1) = 0#(w + 1) })
  | color (n : BitVec (w + 1)) (color : Color)

namespace RbWrite

variable {w : Nat}

def packed (mem : BitVec (w + 1) → Word (w + 1)) : RbWrite w → BitVec (w + 1) → Word (w + 1)
  | child n side val => update mem n ((mem n).setChild side val)
  | color n c => update mem n ((mem n).setColor c)

def plain (H : Heap (BitVec (w + 1))) : RbWrite w → Heap (BitVec (w + 1))
  | child n side val => H.setChild n side (Word.ptr val.1)
  | color n c => H.setColor n c

theorem view_packed (mem : BitVec (w + 1) → Word (w + 1)) (write : RbWrite w) :
    Word.view ∘ write.packed mem = write.plain (Word.view ∘ mem) := by
  cases write with
  | child n side val => exact (comp_update ..).trans (congrArg _ (Word.view_setChild _ side val.2))
  | color n c => exact (comp_update ..).trans (congrArg _ (Word.view_setColor _ c))

end RbWrite

/-- **Packed nodes do as plain ones** (rb.c:20-69): whatever is written, what `get_child` and `get_color` read from
packed memory is what they would read had colours their own field. -/
theorem rbWrites_unpack {w : Nat} (mem : BitVec (w + 1) → Word (w + 1)) (writes : List (RbWrite w)) :
    Word.view ∘ writes.foldl RbWrite.packed mem = writes.foldl RbWrite.plain (Word.view ∘ mem) := by
  induction writes generalizing mem with
  | nil => rfl
  | cons write writes ih => rw [List.foldl_cons, List.foldl_cons, ih, write.view_packed]

variable {α : Type*}

/-! ## Trees in memory -/

/-- Every node of the tree is in memory as the tree has it. -/
def Holds (H : Heap α) : ColorTree α → Prop
  | .nil => True
  | .node c x ch => H x = ⟨fun s => (ch s).root?, c⟩ ∧ ∀ s, Holds H (ch s)

/-- The nodes around a hole that holds `q`. -/
def Around (H : Heap α) : Path α → Option α → Prop
  | [], _ => True
  | f :: p, q => (H f.x = ⟨pair f.side q f.sib.root?, f.c⟩ ∧ Holds H f.sib) ∧ Around H p (some f.x)

theorem root_pair (s : Bool) (t u : ColorTree α) : (fun b => (pair s t u b).root?) = pair s t.root? u.root? := by
  funext b
  cases s <;> cases b <;> rfl

variable {H H' : Heap α} {c : Color} {x y : α} {s : Bool} {t T : ColorTree α} {p : Path α} {l : List α}
    {ch : Bool → ColorTree α} {f : Frame α}

theorem holds_pair {u : ColorTree α} :
    Holds H (.node c x (pair s t u)) ↔ H x = ⟨pair s t.root? u.root?, c⟩ ∧ Holds H t ∧ Holds H u := by
  rw [Holds, root_pair]
  exact and_congr_right fun _ => forall_pair

theorem holds_plug : Holds H (plug p t) ↔ Around H p t.root? ∧ Holds H t := by
  induction p generalizing t with
  | nil => simp [Around]
  | cons f p ih =>
    rw [plug_cons, ih, Frame.fill, holds_pair, Around]
    simp only [root?_node]
    tauto

theorem Holds.congr (h : Holds H t) (hs : ∀ x ∈ t.inorder, H' x = H x) : Holds H' t := by
  induction t with
  | nil => trivial
  | node c x ch ih =>
    refine ⟨(hs x (by simp [inorder_node])).trans h.1, fun s => ih s (h.2 s) fun y hy => hs y ?_⟩
    rw [mem_inorder_node s]; exact .inr (.inl hy)

theorem Around.congr {q : Option α} (h : Around H p q) (hs : ∀ x ∈ nodes p, H' x = H x) :
    Around H' p q := by
  induction p generalizing q with
  | nil => trivial
  | cons f p ih =>
    obtain ⟨⟨h1, h2⟩, h3⟩ := h
    refine ⟨⟨(hs f.x (by simp [nodes])).trans h1, h2.congr fun y hy => hs y (by simp [nodes, hy])⟩,
      ih h3 fun y hy => hs y (by simp [nodes, hy])⟩

/-- Outside `l` memory is the same. -/
def Same (l : List α) (H H' : Heap α) : Prop := ∀ z, z ∉ l → H' z = H z

theorem Same.refl (l : List α) (H : Heap α) : Same l H H := fun _ _ => rfl

theorem Same.trans {H₁ H₂ H₃ : Heap α} (h1 : Same l H₁ H₂) (h2 : Same l H₂ H₃) : Same l H₁ H₃ :=
  fun z hz => (h2 z hz).trans (h1 z hz)

theorem Same.mono {l' : List α} (h : Same l H H') (hl : ∀ z ∈ l, z ∈ l') : Same l' H H' :=
  fun z hz => h z fun hm => hz (hl z hm)

/-- The entries of the stack below the top. -/
def names (p : Path α) : List α := p.map Frame.x

@[simp] theorem names_nil : names ([] : Path α) = [] := rfl
@[simp] theorem names_cons (f : Frame α) (p : Path α) : names (f :: p) = f.x :: names p := rfl
@[simp] theorem names_append (p q : Path α) : names (p ++ q) = names p ++ names q := List.map_append

@[simp] theorem length_names (p : Path α) : (names p).length = p.length := List.length_map _

theorem names_subset (p : Path α) : ∀ x ∈ names p, x ∈ nodes p := by
  induction p with
  | nil => simp
  | cons f p ih =>
    intro x hx
    rcases List.mem_cons.1 hx with rfl | hx
    · simp [nodes]
    · simp [nodes, ih x hx]

/-- `stack[0]` is the root of the tree. -/
theorem root_plug (p : Path α) (c : Color) (x : α) (ch : Bool → ColorTree α) :
    (plug p (.node c x ch)).root? = (x :: names p).getLast? := by
  induction p generalizing c x ch with
  | nil => rfl
  | cons f p ih => rw [plug_cons, Frame.fill, ih]; simp [names]

/-- A node is not below itself. -/
theorem not_mem_child (h : (node c x ch).inorder.Nodup) (s : Bool) : x ∉ (ch s).inorder := by
  rw [inorder_node] at h
  simp only [List.nodup_append, List.nodup_cons] at h
  cases s
  · exact fun hx => h.2.2 x hx x (by simp) rfl
  · exact h.2.1.1

theorem nodup_sib (h : (plug (f :: p) t).inorder.Nodup) {z : α} (hz : z ∈ t.inorder) :
    z ≠ f.x ∧ z ∉ f.sib.inorder := by
  have := (nodup_plug.1 h).2.2 z hz
  simp only [nodes, List.mem_cons, List.mem_append, not_or] at this
  exact ⟨this.1, this.2.1⟩

/-- A rotation keeps the order of the nodes. -/
theorem inorder_rotate (f : Frame α) (p : Path α) (c : Color) (y : α) (ch : Bool → ColorTree α) :
    (plug (⟨!f.side, c, y, ch f.side⟩ :: p) (.node f.c f.x (pair f.side (ch !f.side) f.sib))).inorder =
      (plug (f :: p) (.node c y ch)).inorder := by
  simp only [plug_cons, inorder_plug]
  congr 2
  cases hs : f.side <;> simp [Frame.fill, inorder_node, hs]

theorem redChild_root (h : Holds H t) : H.redChild t.root? = true ↔ t.color = .red := by
  cases t with
  | nil => simp [Heap.redChild]
  | node c x ch => simp [Heap.redChild, Heap.isRed, Heap.getColor, h.1]

theorem filter_isRed (h : Holds H t) :
    t.root?.filter H.isRed = if t.color = .red then t.root? else none := by
  cases t with
  | nil => simp
  | node c x ch => cases c <;> simp [Heap.isRed, Heap.getColor, h.1]

theorem InRange.single (x : α) : InRange 1 (.node .black x fun _ => .nil : ColorTree α) :=
  ⟨rfl, by simp [depth], 1, ⟨0, rfl, fun _ => rfl⟩, by omega⟩

variable [DecidableEq α]

section writes

variable {H : Heap α}

theorem setChild_self (x : α) (s : Bool) (v : Option α) :
    H.setChild x s v x = { H x with child := update (H x).child s v } := by simp [Heap.setChild]

theorem setChild_ne (s : Bool) (v : Option α) (h : y ≠ x) : H.setChild x s v y = H y := by
  simp [Heap.setChild, h]

theorem setColor_self (x : α) (c : Color) : H.setColor x c x = { H x with color := c } := by simp [Heap.setColor]

theorem setColor_ne (c : Color) (h : y ≠ x) : H.setColor x c y = H y := by
  simp [Heap.setColor, h]

theorem update_pair_self {β : Type*} (s : Bool) (a b v : β) : update (pair s a b) s v = pair s v b := by
  funext x
  cases s <;> cases x <;> simp [pair]

theorem update_pair_not {β : Type*} (s : Bool) (a b v : β) : update (pair s a b) (!s) v = pair s a v := by
  funext x
  cases s <;> cases x <;> simp [pair]

theorem setChild_pair {a b : Option α} (h : H x = ⟨pair s a b, c⟩) (v : Option α) :
    H.setChild x s v x = ⟨pair s v b, c⟩ := by
  rw [setChild_self, h]; simp [update_pair_self]

theorem getSide_of (h : H x = ⟨pair s (some y) t.root?, c⟩) (hy : y ∉ t.inorder) : H.getSide x y = s := by
  have hq : t.root? ≠ some y := mt root?_mem hy
  cases s <;> simp [Heap.getSide, Heap.getChild, h, hq]

/-- Recolouring a node of the tree. -/
theorem Holds.setColor {d : Color} (h : Holds H (plug p (.node c x ch)))
    (hnd : (plug p (.node c x ch)).inorder.Nodup) : Holds (H.setColor x d) (plug p (.node d x ch)) := by
  obtain ⟨hp, hx, hch⟩ := holds_plug.1 h
  obtain ⟨h1, -, h3⟩ := nodup_plug.1 hnd
  refine holds_plug.2 ⟨hp.congr fun y hy => setColor_ne _ ?_, ?_, fun s => (hch s).congr fun y hy => setColor_ne _ ?_⟩
  · rintro rfl; exact h3 y (by simp [inorder_node]) hy
  · rw [setColor_self, hx]
  · rintro rfl; exact not_mem_child h1 s hy

theorem Holds.setColorAt {T' : ColorTree α} (h : Holds H T) (hnd : T.inorder.Nodup) (p : Path α) (c c' : Color)
    (x : α) (ch : Bool → ColorTree α) (e : T = plug p (.node c x ch)) (e' : plug p (.node c' x ch) = T') :
    Holds (H.setColor x c') T' := by
  subst e e'
  exact h.setColor hnd

/-- Hanging another tree into a hole. -/
theorem Holds.setHole {u : ColorTree α} (h : Holds H (plug (f :: p) t)) (ht : Holds H u)
    (hnd : (nodes (f :: p)).Nodup) (hf : f.x ∉ u.inorder) :
    Holds (H.setChild f.x f.side u.root?) (plug (f :: p) u) := by
  obtain ⟨⟨⟨h1, h2⟩, h3⟩, -⟩ := holds_plug.1 h
  simp only [nodes, List.nodup_cons, List.mem_append, not_or] at hnd
  refine holds_plug.2 ⟨⟨⟨setChild_pair h1 _, h2.congr fun y hy => setChild_ne _ _ ?_⟩, h3.congr fun y hy =>
    setChild_ne _ _ ?_⟩, ht.congr fun y hy => setChild_ne _ _ ?_⟩
  · rintro rfl; exact hnd.1.1 hy
  · rintro rfl; exact hnd.1.2 hy
  · rintro rfl; exact hf hy

end writes

/-! ## Rotation -/

/-- The write to the node above, if there is one: `new` in place of `old`. -/
def redirect (H : Heap α) (up : List α) (old new : α) : Heap α :=
  match up with
  | [] => H
  | g :: _ => H.setChild g (H.getSide g old) (some new)

theorem Around.redirect (h : Around H p (some x)) (hnd : (nodes p).Nodup) (hx : x ∉ nodes p) :
    Around (redirect H (names p) x y) p (some y) ∧ ∀ z, z ∉ names p → redirect H (names p) x y z = H z := by
  cases p with
  | nil => exact ⟨trivial, fun _ _ => rfl⟩
  | cons g p =>
    obtain ⟨⟨h1, h2⟩, h3⟩ := h
    simp only [nodes, List.nodup_cons, List.mem_append, not_or, List.mem_cons] at hnd hx
    have hside : H.getSide g.x x = g.side := getSide_of h1 hx.2.1
    have he : Zephyr.redirect H (names (g :: p)) x y = H.setChild g.x g.side (some y) := by
      simp [Zephyr.redirect, hside]
    rw [he]
    refine ⟨⟨⟨setChild_pair h1 _, ?_⟩, ?_⟩, fun z hz => ?_⟩
    · exact h2.congr fun z hz => setChild_ne _ _ (by rintro rfl; exact hnd.1.1 hz)
    · exact h3.congr fun z hz => setChild_ne _ _ (by rintro rfl; exact hnd.1.2 hz)
    · exact setChild_ne _ _ (by rintro rfl; simp at hz)

/-- **`rotate` (rb.c:125)**: the node `y` and its parent change places. -/
theorem rotate_spec
    (h : Holds H (plug (f :: p) (.node c y ch))) (hnd : (plug (f :: p) (.node c y ch)).inorder.Nodup) :
    ∃ H', rotate H (y :: f.x :: names p) = some (H', f.x :: y :: names p) ∧
      Holds H' (plug (⟨!f.side, c, y, ch f.side⟩ :: p) (.node f.c f.x (pair f.side (ch !f.side) f.sib))) ∧
      Same (plug (f :: p) (.node c y ch)).inorder H H' := by
  obtain ⟨⟨⟨hf, hsib⟩, hp⟩, hy, hch⟩ := holds_plug.1 h
  obtain ⟨hnt, hnp, hdis⟩ := nodup_plug.1 hnd
  have hyf := hdis y (by simp [inorder_node])
  simp only [nodes, List.nodup_cons, List.mem_append, not_or, List.mem_cons, List.nodup_append] at hnp hyf
  have hchne : ∀ s, ∀ z ∈ (ch s).inorder, z ≠ y ∧ z ≠ f.x ∧ z ∉ nodes p := by
    intro s z hz
    have hm : z ∈ (node c y ch).inorder := by rw [mem_inorder_node s]; exact .inr (.inl hz)
    have hd := hdis z hm
    simp only [nodes, List.mem_append, not_or, List.mem_cons] at hd
    exact ⟨by rintro rfl; exact not_mem_child hnt s hz, hd.1, hd.2.2⟩
  have hside : H.getSide f.x y = f.side := getSide_of hf hyf.2.1
  obtain ⟨hp₁, hsame⟩ := hp.redirect (y := y) hnp.2.2.1 hnp.1.2
  have hnames := names_subset p
  have h1y : redirect H (names p) f.x y y = H y := hsame y fun hm => hyf.2.2 (hnames y hm)
  have h1f : redirect H (names p) f.x y f.x = H f.x := hsame f.x fun hm => hnp.1.2 (hnames f.x hm)
  have hfy : f.x ≠ y := Ne.symm hyf.1
  obtain ⟨H', hH'⟩ : ∃ H', H' = (((redirect H (names p) f.x y).setChild y f.side (ch f.side).root?).setChild y
    (!f.side) (some f.x)).setChild
    f.x f.side (ch !f.side).root? := ⟨_, rfl⟩
  have hkeep : ∀ z, z ≠ y → z ≠ f.x → H' z = redirect H (names p) f.x y z := by
    intro z hzy hzf
    rw [hH', setChild_ne _ _ hzf, setChild_ne _ _ hzy, setChild_ne _ _ hzy]
  have hrest : ∀ z, z ≠ y → z ≠ f.x → z ∉ nodes p → H' z = H z := fun z hzy hzf hzp =>
    (hkeep z hzy hzf).trans (hsame z fun hm => hzp (hnames z hm))
  have hsub : ∀ s, Holds H' (ch s) := fun s => (hch s).congr fun z hz =>
    hrest z (hchne s z hz).1 (hchne s z hz).2.1 (hchne s z hz).2.2
  refine ⟨H', ?_, holds_plug.2 ⟨⟨⟨?_, hsub _⟩, ?_⟩, holds_pair.2 ⟨?_, hsub _, ?_⟩⟩, fun z hz => ?_⟩
  · simp only [rotate, hside, Heap.getChild, hy, hH']
    rfl
  · -- the node that went up
    rw [hH', setChild_ne _ _ (Ne.symm hfy), setChild_self, setChild_self, h1y, hy]
    have : (fun s => (ch s).root?) = pair f.side (ch f.side).root? (ch !f.side).root? := by
      rw [← root_pair, pair_eta]
    simp only [this, update_pair_self, update_pair_not, root?_node, RbNode.mk.injEq, and_true]
    exact (pair_swap _ _ _).symm
  · exact hp₁.congr fun z hz => hkeep z (by rintro rfl; exact hyf.2.2 hz) (by rintro rfl; exact hnp.1.2 hz)
  · -- the node that went down
    rw [hH']
    refine setChild_pair (a := some y) ?_ _
    rw [setChild_ne _ _ hfy, setChild_ne _ _ hfy, h1f, hf]
    rfl
  · exact hsib.congr fun z hz => hrest z (by rintro rfl; exact hyf.2.1 hz) (by rintro rfl; exact hnp.1.1 hz)
      fun hm => hnp.2.2.2 z hz z hm rfl
  · rw [mem_plug, not_or, inorder_node] at hz
    simp only [nodes, List.mem_append, List.mem_cons, not_or] at hz
    exact hrest z hz.1.2.1 hz.2.1 hz.2.2.2

theorem Same.setColor (h : x ∈ l) (c : Color) : Same l H (H.setColor x c) :=
  fun z hz => setColor_ne c (by rintro rfl; exact hz h)

theorem setColor_comm (H : Heap α) (h : x ≠ y) (c d : Color) :
    (H.setColor x c).setColor y d = (H.setColor y d).setColor x c := by
  funext z
  by_cases hx : z = x
  · subst hx; simp [Heap.setColor, h]
  · by_cases hy : z = y
    · subst hy; simp [Heap.setColor, hx]
    · simp [Heap.setColor, hx, hy]

/-- A rotation and new colours for the two nodes. -/
theorem rotate_recolor
    (h : Holds H (plug (f :: p) (.node c y ch))) (hnd : (plug (f :: p) (.node c y ch)).inorder.Nodup) (cy cf : Color) :
    ∃ H', rotate H (y :: f.x :: names p) = some (H', f.x :: y :: names p) ∧
      Holds ((H'.setColor y cy).setColor f.x cf)
        (plug p (.node cy y (pair f.side (ch f.side) (.node cf f.x (pair f.side (ch !f.side) f.sib))))) ∧
      Same (plug (f :: p) (.node c y ch)).inorder H ((H'.setColor y cy).setColor f.x cf) ∧ y ≠ f.x := by
  obtain ⟨H', hrot, hH', hsame⟩ := rotate_spec h hnd
  have hnd' := hnd
  rw [← inorder_rotate] at hnd'
  have hy : y ∈ (plug (f :: p) (.node c y ch)).inorder := by simp [mem_plug, inorder_node]
  have hf : f.x ∈ (plug (f :: p) (.node c y ch)).inorder := by simp [mem_plug, nodes]
  have hne : y ≠ f.x := by
    rintro e
    have := (nodup_plug.1 hnd).2.2 y (by simp [inorder_node])
    simp [nodes, e] at this
  have h1 := Holds.setColor (p := p) (d := cy) hH' hnd'
  have h2 := Holds.setColor (p := ⟨!f.side, cy, y, ch f.side⟩ :: p) (d := cf) h1
    (by simpa [plug_cons, inorder_plug, Frame.fill, inorder_pair] using hnd')
  refine ⟨H', hrot, ?_, (hsame.trans (Same.setColor hy cy)).trans (Same.setColor hf cf), hne⟩
  simpa only [plug_cons, Frame.fill, pair_swap] using h2

/-! ## Insertion -/

/-- The recolouring of a red parent and aunt under a black grandparent. -/
theorem Holds.recolor {g : Frame α} {q : Path α} {a : α} {cha : Bool → ColorTree α}
    (h : Holds H (plug (f :: g :: q) t)) (hnd : (plug (f :: g :: q) t).inorder.Nodup) (ha : g.sib = .node .red a cha) :
    Holds (((H.setColor g.x .red).setColor f.x .black).setColor a .black)
        (plug q (.node .red g.x (pair g.side (.node .black f.x (pair f.side t f.sib)) g.sib.blacken))) ∧
      Same (plug (f :: g :: q) t).inorder H (((H.setColor g.x .red).setColor f.x .black).setColor a .black) ∧
      (plug q (.node .red g.x (pair g.side (.node .black f.x (pair f.side t f.sib)) g.sib.blacken))).inorder =
        (plug (f :: g :: q) t).inorder := by
  have hin : ∀ c1 c2 c3, (plug q (.node c1 g.x
    (pair g.side (.node c2 f.x (pair f.side t f.sib)) (.node c3 a cha)))).inorder =
      (plug (f :: g :: q) t).inorder := by
    intro c1 c2 c3
    simp only [plug_cons, inorder_plug, Frame.fill, inorder_pair, ha]
    simp only [inorder_node]
  simp only [plug_cons, Frame.fill] at h
  have h1 := Holds.setColor (d := .red) h (by rw [ha, hin]; exact hnd)
  have h2 := Holds.setColor (p := ⟨g.side, .red, g.x, g.sib⟩ :: q) (d := .black) h1
    (by simp only [plug_cons, Frame.fill]; rw [ha, hin]; exact hnd)
  simp only [plug_cons, Frame.fill, ha] at h2
  rw [← pair_swap] at h2
  have h3 := Holds.setColor (p := ⟨!g.side, .red, g.x, .node .black f.x (pair f.side t f.sib)⟩ :: q) (d := .black) h2
    (by simp only [plug_cons, Frame.fill, pair_swap]; rw [hin]; exact hnd)
  simp only [plug_cons, Frame.fill, pair_swap] at h3
  refine ⟨by rw [ha]; exact h3, ((Same.setColor ?_ _).trans (Same.setColor ?_ _)).trans (Same.setColor ?_ _), ?_⟩
  · simp [mem_plug, nodes]
  · simp [mem_plug, nodes]
  · simp [mem_plug, nodes, ha, inorder_node]
  · rw [ha]; exact hin _ _ _

section

variable {H H₁ H' : Heap α} {node parent grandparent : α} {up : List α}

theorem fixExtraRed_straight (hred : H.isBlack parent = false)
    (ha : (H.getChild grandparent (!H.getSide grandparent parent)).filter H.isRed = none)
    (hs : H.getSide parent node = H.getSide grandparent parent)
    (hrot : rotate H (parent :: grandparent :: up) = some (H', grandparent :: parent :: up)) :
    fixExtraRed H (node :: parent :: grandparent :: up) =
      some ((H'.setColor parent .black).setColor grandparent .red, node :: grandparent :: parent :: up) := by
  rw [fixExtraRed]
  simp [hred, ha, hs, hrot]

theorem fixExtraRed_bend (hred : H.isBlack parent = false)
    (ha : (H.getChild grandparent (!H.getSide grandparent parent)).filter H.isRed = none)
    (hs : H.getSide parent node ≠ H.getSide grandparent parent)
    (hrot₁ : rotate H (node :: parent :: grandparent :: up) = some (H₁, parent :: node :: grandparent :: up))
    (hrot : rotate H₁ (node :: grandparent :: up) = some (H', grandparent :: node :: up)) :
    fixExtraRed H (node :: parent :: grandparent :: up) =
      some ((H'.setColor node .black).setColor grandparent .red, parent :: grandparent :: node :: up) := by
  rw [fixExtraRed]
  simp [hred, ha, hs, hrot₁, hrot]

end

/-- **`fix_extra_red` (rb.c:156)** computes `fixRed`, and `stack[0]` is the new root. -/
theorem fixExtraRed_spec (p : Path α) : ∀ {H : Heap α} {y : α} {ch : Bool → ColorTree α} {n : Nat},
    Holds H (plug p (.node .red y ch)) → (plug p (.node .red y ch)).inorder.Nodup → Fits p .black n →
    ∃ H' st, fixExtraRed H (y :: names p) = some (H', st) ∧ Holds H' (fixRed p (.node .red y ch)) ∧
      st.getLast? = (fixRed p (.node .red y ch)).root? ∧ Same (plug p (.node .red y ch)).inorder H H' := by
  induction hlen : p.length using Nat.strong_induction_on generalizing p with
  | _ len ih =>
    intro H y ch n h hnd hp
    rcases hp.cases_up with rfl | ⟨f, q, rfl, hf⟩ | ⟨f, g, q, rfl, hf, hg, hb, hs, hgs, hq⟩
    · refine ⟨H.setColor y .black, [y], by simp [fixExtraRed], ?_, rfl, Same.setColor (by simp [inorder_node]) _⟩
      exact Holds.setColor (p := []) h hnd
    · obtain ⟨⟨hfx, -⟩, -⟩ := (holds_plug.1 h).1
      refine ⟨H, y :: f.x :: names q, ?_, ?_, ?_, Same.refl _ _⟩
      · unfold fixExtraRed
        simp [Heap.isBlack, Heap.getColor, hfx, hf]
      · rwa [fixRed_of_black hf]
      · rw [fixRed_of_black hf, root_plug]; rfl
    · obtain ⟨⟨hfx, -⟩, ⟨hgx, hgsib⟩, -⟩ := (holds_plug.1 h).1
      have hside : H.getSide g.x f.x = g.side :=
        getSide_of hgx (nodup_sib (f := g) (t := f.fill _) hnd (by simp [Frame.fill, mem_inorder_pair])).2
      have hpside : H.getSide f.x y = f.side :=
        getSide_of hfx (nodup_sib hnd (by simp [inorder_node])).2
      have haunt : (H.getChild g.x (!g.side)).filter H.isRed = if g.sib.color = .red then g.sib.root? else none := by
        rw [Heap.getChild, hgx]
        simpa using filter_isRed hgsib
      have hfred : H.isBlack f.x = false := by simp [Heap.isBlack, Heap.getColor, hfx, hf]
      cases ha : g.sib.color with
      | red =>
        cases hsib : g.sib with
        | nil => simp [hsib] at ha
        | node ca a cha =>
          obtain rfl : ca = .red := by simpa [hsib] using ha
          obtain ⟨hH, hsame, hin⟩ := h.recolor hnd hsib
          obtain ⟨H', st, h1, h2, h3, h4⟩ := ih q.length (by simp at hlen; omega) q rfl hH (by rwa [hin]) hq
          rw [fixRed_recolor hf ha]
          rw [hin] at h4
          refine ⟨H', st, ?_, h2, h3, hsame.trans h4⟩
          unfold fixExtraRed
          simp only [names_cons, hfred, hside, haunt, hsib, root?_node, Bool.false_eq_true, if_false]
          exact h1
      | black =>
        rw [fixRed_rotate hf ha]
        by_cases hfg : f.side = g.side
        · -- a straight line: one rotation
          obtain ⟨H', hrot, hH', hsame, -⟩ := rotate_recolor (f := g) (p := q) h hnd .black .red
          refine ⟨_, y :: g.x :: f.x :: names q, ?_, ?_, ?_, hsame⟩
          · exact fixExtraRed_straight hfred (by rw [hside, haunt, ha]; rfl) (by rw [hpside, hside, hfg]) hrot
          · simpa [rotRed, hfg] using hH'
          · simp only [rotRed, hfg, if_true, root_plug]; rfl
        · -- a bend: the first rotation makes it straight
          have hgf : g.side = !f.side := by cases hx : f.side <;> cases hy : g.side <;> simp_all
          obtain ⟨H₁, hrot₁, hH₁, hsame₁⟩ := rotate_spec h hnd
          have hnd₁ := hnd
          rw [← inorder_rotate] at hnd₁
          obtain ⟨H', hrot, hH', hsame, -⟩ := rotate_recolor (f := g) (p := q) hH₁ hnd₁ .black .red
          refine ⟨_, f.x :: g.x :: y :: names q, ?_, ?_, ?_, hsame₁.trans (inorder_rotate f (g :: q) .red y ch ▸ hsame)⟩
          · exact fixExtraRed_bend hfred (by rw [hside, haunt, ha]; rfl) (by rwa [hpside, hside]) hrot₁ hrot
          · simpa [rotRed, hfg, hgf, pair_swap, hf] using hH'
          · simp only [rotRed, hfg, if_false, root_plug]; rfl

/-! ## Search -/

/-- What `find_and_stack` leaves on the stack for a position in the tree. -/
def stackOf (r : Path α × ColorTree α) : List α := r.2.root?.toList ++ names r.1

theorem findLoop_eq (lt : α → α → Bool) (x : α) : ∀ {c y ch} (p : Path α) (room : Nat),
    t = .node c y ch → Holds H t → t.depth ≤ room + 1 →
    findLoop lt H x room (y :: names p) = some (stackOf (locate lt x t p)) := by
  induction t with
  | nil => intro _ _ _ _ _ h; simp at h
  | node c y ch ih =>
    rintro _ _ _ p room ⟨⟩ h hd
    obtain ⟨hy, hch⟩ := h
    unfold findLoop
    by_cases hyx : y = x
    · simp [hyx, locate, stackOf]
    · have hdc := depth_child_lt c y ch (!lt x y)
      have hget : H.getChild y (!lt x y) = (ch !lt x y).root? := by rw [Heap.getChild, hy]
      simp only [hyx, if_false, locate, hget]
      cases hc : ch !lt x y with
      | nil => simp [locate, stackOf]
      | node c' z ch' =>
        rw [hc] at hdc
        cases room with
        | zero => simp [depth] at hdc hd; omega
        | succ room =>
          have := ih (!lt x y) (⟨!lt x y, c, y, ch (lt x y)⟩ :: p) room hc (hch _) (by rw [hc]; omega)
          rw [hc] at this
          exact this

/-- The tree `T` is in memory, within the bound the code keeps. -/
structure RbRep (H : Heap α) (t : RbTree α) (T : ColorTree α) : Prop where
  holds : Holds H T
  root : t.root = T.root?
  range : InRange t.maxDepth T
  nodup : T.inorder.Nodup

theorem findAndStack_eq (lt : α → α → Bool) {root : α} {m : Nat} (h : Holds H T)
    (hr : T.root? = some root) (hm : T.depth ≤ m) (x : α) :
    findAndStack lt H root x (m + 1) = some (stackOf (locate lt x T [])) := by
  cases T with
  | nil => simp at hr
  | node c y ch =>
    obtain rfl : y = root := by simpa using hr
    exact findLoop_eq lt x [] m rfl h (by omega)

/-- **`rb_insert` (rb.c:212)** of a node that is not in the tree: it goes where the comparisons lead. -/
theorem rbInsert_at (lt : α → α → Bool) {t : RbTree α} (h : RbRep H t T) (hx : x ∉ T.inorder) :
    ∃ q H' t' T', locate lt x T [] = (q, .nil) ∧ plug q .nil = T ∧ rbInsert lt H t x = some (H', t') ∧ RbRep H' t' T' ∧
      T'.inorder = before q ++ x :: after q ∧ Same (x :: T.inorder) H H' := by
  have hclear : ∀ z, z ≠ x → ((H.setChild x false none).setChild x true none) z = H z := by
    intro z hz
    rw [setChild_ne _ _ hz, setChild_ne _ _ hz]
  have hleaf : ((H.setChild x false none).setChild x true none) x = ⟨fun _ => none, (H x).color⟩ := by
    simp only [setChild_self, RbNode.mk.injEq, and_true]
    funext s
    cases s <;> simp
  cases hroot : T.root? with
  | none =>
    obtain rfl := root?_eq_none.1 hroot
    refine ⟨[], ((H.setChild x false none).setChild x true none).setColor x .black, ⟨some x, 1⟩,
      .node .black x fun _ => .nil, rfl, rfl, by simp [rbInsert, h.root], ⟨⟨?_, fun _ => trivial⟩, rfl,
      InRange.single x, by simp [inorder_node]⟩, by simp [inorder_node, before, after], fun z hz => ?_⟩
    · rw [setColor_self, hleaf]
      rfl
    · have hzx : z ≠ x := by simpa using hz
      rw [setColor_ne _ hzx, hclear z hzx]
  | some root =>
    obtain ⟨q, r, hloc, hq, hsides, hr⟩ := locate_spec lt x (t := T) []
    rw [List.append_nil] at hloc
    obtain rfl : r = .nil := by
      rcases hr with hr | ⟨c, ch, rfl⟩
      · exact hr
      · exact absurd (by rw [← hq, mem_plug]; simp [inorder_node]) hx
    cases q with
    | nil => simp at hq; simp [← hq] at hroot
    | cons f q =>
      have hH : Holds ((H.setChild x false none).setChild x true none) T :=
        h.holds.congr fun z hz => hclear z (by rintro rfl; exact hx hz)
      obtain ⟨n, hbal, -⟩ := h.range.bal
      rw [← hq] at hbal
      obtain ⟨k, rfl, hfits, -⟩ := Fits.of_bal_plug hbal (by rw [hq]; exact h.range.black)
      have hlen : (f :: q).length ≤ t.maxDepth := by
        have := h.range.depth
        rw [← hq] at this
        simpa using (depth_plug_le.1 this).1
      have hside : (!lt x f.x) = f.side := (hsides f (by simp)).2
      -- the new node, still of whatever colour its memory had
      obtain ⟨hnt, hndp, -⟩ := nodup_plug.1 (hq ▸ h.nodup)
      have hxp : x ∉ nodes (f :: q) := fun hm => hx (by rw [← hq]; exact mem_plug.2 (.inr hm))
      have hput := Holds.setHole (u := .node (H x).color x fun _ => .nil) (hq ▸ hH) ⟨hleaf, fun _ => trivial⟩ hndp
        (by intro hm; simp [inorder_node] at hm; exact hxp (by simp [nodes, hm]))
      have hnd : ∀ c, (plug (f :: q) (.node c x fun _ => .nil : ColorTree α)).inorder.Nodup := by
        intro c
        exact nodup_plug.2 ⟨by simp [inorder_node], hndp, by intro y hy; simp [inorder_node] at hy; exact hy ▸ hxp⟩
      have hred := Holds.setColor (d := .red) hput (hnd _)
      obtain ⟨H', st, hfix, hH', hst, hsame⟩ := fixExtraRed_spec (f :: q) hred (hnd _) hfits
      refine ⟨f :: q, H', ⟨st.getLast?, max t.maxDepth ((f :: q).length + 1)⟩, insertAt (f :: q) x, hloc, hq, ?_,
        ⟨hH', hst, ?_, ?_⟩, inorder_insertAt (hq ▸ h.range) x, ?_⟩
      · have hfind : findAndStack lt ((H.setChild x false none).setChild x true none) root x (t.maxDepth + 1) =
            some (f.x :: names q) := by
          rw [findAndStack_eq lt hH hroot h.range.depth, hloc]
          rfl
        simp only [rbInsert, h.root, hroot, hfind, bind_eq_bind, bind_some, List.head?_cons, hside]
        have hpush : push (t.maxDepth + 1) (f.x :: names q) x = some (x :: f.x :: names q) := by
          simp only [push, List.length_cons, length_names] at hlen ⊢
          rw [if_pos (by omega)]
        have hmax : (if (x :: f.x :: names q).length > t.maxDepth then (x :: f.x :: names q).length else t.maxDepth) =
            max t.maxDepth ((f :: q).length + 1) := by
          simp only [List.length_cons, length_names]
          split <;> omega
        simp only [names_cons, root?_node] at hfix
        simp only [hpush, bind_some, hfix, hmax]
      · exact insertAt_inRange (hq ▸ h.range) x
      · have hin := inorder_plug (f :: q) (.nil : ColorTree α)
        rw [hq, inorder_nil, List.append_nil] at hin
        rw [inorder_insertAt (hq ▸ h.range)]
        exact List.nodup_middle.2 (List.nodup_cons.2 ⟨hin ▸ hx, hin ▸ h.nodup⟩)
      · intro z hz
        simp only [List.mem_cons, not_or] at hz
        have hzp : z ∉ nodes (f :: q) := fun hm => hz.2 (by rw [← hq]; exact mem_plug.2 (.inr hm))
        have hzf : z ≠ f.x := by rintro rfl; exact hzp (by simp [nodes])
        rw [hsame z, setColor_ne _ hz.1, setChild_ne _ _ hzf, hclear z hz.1]
        rw [mem_plug]
        simp [inorder_node, hz.1, hzp]

/-- In a tree that the comparison with `x` cuts in two, `rb_insert` puts `x` at the cut. -/
theorem rbInsert_spec {lt : α → α → Bool} {t : RbTree α} {A B : List α}
    (h : RbRep H t T) (hT : T.inorder = A ++ B) (hx : x ∉ T.inorder) (hA : ∀ a ∈ A, lt x a = false)
    (hB : ∀ b ∈ B, lt x b = true) :
    ∃ H' t' T', rbInsert lt H t x = some (H', t') ∧ RbRep H' t' T' ∧ T'.inorder = A ++ x :: B ∧
      Same (x :: T.inorder) H H' := by
  obtain ⟨q, H', t', T', hloc, -, hins, hrep, hin, hsame⟩ := rbInsert_at lt h hx
  obtain ⟨q', hloc', -, rfl, rfl⟩ := locate_new lt [] hA hB hT hx
  obtain rfl : q = q' := by
    rw [hloc, List.append_nil] at hloc'
    exact congrArg Prod.fst hloc'
  exact ⟨H', t', T', hins, hrep, hin, hsame⟩

end Zephyr
