import Mathlib.Data.List.Basic
import Mathlib.Data.List.Nodup
import Mathlib.Order.Lattice
/-!
# Coloured binary trees with a hole

A node has two children indexed by a side (`false`: smaller, `true`: larger), so that the mirror
images of a case are one case. A `Path` is what lies above a position in a tree, nearest node first,
which is how an algorithm without parent pointers remembers it; `plug` puts a tree back there.

* `ColorTree.Bal t n`: no red node has a red child, and every way down meets `n` black nodes;
* `Path.Fits p c n`: a `Bal` tree of colour `c` and black height `n` in the hole makes a red-black
  tree (`Fits.bal_plug`);
* `depth_plug_le`: a bound on the depth of a plugged tree, position by position.
-/
namespace RedBlack

variable {α β : Type*}

inductive Color where
  | red
  | black
deriving DecidableEq, Repr

/-- `t` on side `s`, `u` on the other. -/
def pair (s : Bool) (t u : β) : Bool → β := fun b => if b = s then t else u

@[simp] theorem pair_self (s : Bool) (t u : β) : pair s t u s = t := by simp [pair]

@[simp] theorem pair_not (s : Bool) (t u : β) : pair s t u (!s) = u := by simp [pair]

@[simp] theorem pair_false_true (t u : β) : pair false t u true = u := rfl

@[simp] theorem pair_true_false (t u : β) : pair true t u false = u := rfl

@[simp] theorem pair_eta (s : Bool) (f : Bool → β) : pair s (f s) (f !s) = f := by
  funext b
  cases s <;> cases b <;> rfl

theorem pair_swap (s : Bool) (t u : β) : pair (!s) t u = pair s u t := by
  funext b
  cases s <;> cases b <;> rfl

variable {s : Bool} {c : Color} {x y : α} {m n : Nat}

theorem forall_pair {P : β → Prop} {t u : β} : (∀ b, P (pair s t u b)) ↔ P t ∧ P u := by
  cases s <;> simp [pair, and_comm]

inductive ColorTree (α : Type*) where
  | nil
  | node (c : Color) (x : α) (ch : Bool → ColorTree α)

namespace ColorTree

/-- Leaves count as black. -/
def color : ColorTree α → Color
  | nil => .black
  | node c _ _ => c

def root? : ColorTree α → Option α
  | nil => none
  | node _ x _ => some x

def blacken : ColorTree α → ColorTree α
  | nil => nil
  | node _ x ch => node .black x ch

def inorder : ColorTree α → List α
  | nil => []
  | node _ x ch => inorder (ch false) ++ x :: inorder (ch true)

/-- Number of nodes on the longest way down. -/
def depth : ColorTree α → Nat
  | nil => 0
  | node _ _ ch => max (depth (ch false)) (depth (ch true)) + 1

/-- No red node has a red child, and every way down meets `n` black nodes. -/
def Bal : ColorTree α → Nat → Prop
  | nil, n => n = 0
  | node .red _ ch, n => ∀ s, Bal (ch s) n ∧ (ch s).color = .black
  | node .black _ ch, n => ∃ m, n = m + 1 ∧ ∀ s, Bal (ch s) m

@[simp] theorem color_nil : (nil : ColorTree α).color = .black := rfl
@[simp] theorem color_node (c : Color) (x : α) (ch : Bool → ColorTree α) : (node c x ch).color = c := rfl
@[simp] theorem root?_nil : (nil : ColorTree α).root? = none := rfl
@[simp] theorem root?_node (c : Color) (x : α) (ch : Bool → ColorTree α) : (node c x ch).root? = some x := rfl
@[simp] theorem inorder_nil : (nil : ColorTree α).inorder = [] := rfl

theorem inorder_node (c : Color) (x : α) (ch : Bool → ColorTree α) :
    (node c x ch).inorder = (ch false).inorder ++ x :: (ch true).inorder := rfl

theorem inorder_pair (c : Color) (x : α) (s : Bool) (t u : ColorTree α) :
    (node c x (pair s t u)).inorder = if s then u.inorder ++ x :: t.inorder else t.inorder ++ x :: u.inorder := by
  cases s <;> rfl

theorem mem_inorder_pair {t u : ColorTree α} :
    y ∈ (node c x (pair s t u)).inorder ↔ y = x ∨ y ∈ t.inorder ∨ y ∈ u.inorder := by
  cases s <;> simp [inorder_pair] <;> tauto

theorem mem_inorder_node {ch : Bool → ColorTree α} (s : Bool) :
    y ∈ (node c x ch).inorder ↔ y = x ∨ y ∈ (ch s).inorder ∨ y ∈ (ch !s).inorder := by
  conv_lhs => rw [← pair_eta s ch]
  exact mem_inorder_pair

@[simp] theorem inorder_blacken (t : ColorTree α) : t.blacken.inorder = t.inorder := by
  cases t <;> rfl

@[simp] theorem depth_blacken (t : ColorTree α) : t.blacken.depth = t.depth := by
  cases t <;> rfl

@[simp] theorem color_blacken (t : ColorTree α) : t.blacken.color = .black := by
  cases t <;> rfl

@[simp] theorem depth_nil : (nil : ColorTree α).depth = 0 := rfl

theorem depth_pair_le {t u : ColorTree α} : (node c x (pair s t u)).depth ≤ m ↔ t.depth + 1 ≤ m ∧ u.depth + 1 ≤ m := by
  rw [depth, ← Nat.add_max_add_right]
  cases s
  · exact Nat.max_le
  · exact Nat.max_le.trans and_comm

theorem depth_child_lt (c : Color) (x : α) (ch : Bool → ColorTree α) (s : Bool) :
    (ch s).depth < (node c x ch).depth := by
  cases s <;> simp only [depth] <;> omega

theorem bal_red {t u : ColorTree α} :
    Bal (node .red x (pair s t u)) n ↔ (Bal t n ∧ t.color = .black) ∧ Bal u n ∧ u.color = .black := by
  rw [Bal, forall_pair (P := fun t => Bal t n ∧ t.color = .black)]

theorem bal_black {t u : ColorTree α} : Bal (node .black x (pair s t u)) (n + 1) ↔ Bal t n ∧ Bal u n := by
  rw [Bal]
  constructor
  · rintro ⟨m, hm, h⟩
    obtain rfl : n = m := by omega
    exact (forall_pair (P := fun t => Bal t n)).1 h
  · exact fun h => ⟨n, rfl, (forall_pair (P := fun t => Bal t n)).2 h⟩

/-- A red tree of black height `n` blackened has black height `n + 1`. -/
theorem Bal.blacken_red {t : ColorTree α} (h : Bal t n) (hc : t.color = .red) : Bal t.blacken (n + 1) := by
  cases t with
  | nil => simp at hc
  | node c x ch =>
    obtain rfl : c = .red := hc
    exact ⟨n, rfl, fun s => (h s).1⟩

theorem blacken_of_black {t : ColorTree α} (hc : t.color = .black) : t.blacken = t := by
  cases t with
  | nil => rfl
  | node c x ch => obtain rfl : c = .black := hc; rfl

/-- Red nodes at most double the way down. -/
theorem Bal.depth_le {t : ColorTree α} (h : Bal t n) : t.depth ≤ 2 * n + 1 ∧ (t.color = .black → t.depth ≤ 2 * n) := by
  induction t generalizing n with
  | nil => simp
  | node c x ch ih =>
    cases c with
    | red =>
      have hf := (ih false (h false).1).2 (h false).2
      have ht := (ih true (h true).1).2 (h true).2
      refine ⟨?_, by simp⟩
      simp only [depth]; omega
    | black =>
      obtain ⟨m, rfl, h⟩ := h
      have hf := (ih false (h false)).1
      have ht := (ih true (h true)).1
      simp only [depth]
      refine ⟨?_, fun _ => ?_⟩ <;> omega

/-- A tree of positive black height has a node. -/
theorem Bal.ne_nil {t : ColorTree α} (h : Bal t (n + 1)) : ∃ c x ch, t = node c x ch := by
  cases t with
  | nil => simp [Bal] at h
  | node c x ch => exact ⟨c, x, ch, rfl⟩

end ColorTree

open ColorTree

/-! ## Paths -/

/-- A node with a hole on side `side` and the subtree `sib` on the other. -/
structure Frame (α : Type*) where
  side : Bool
  c : Color
  x : α
  sib : ColorTree α

/-- The nodes above a hole, nearest first. -/
abbrev Path (α : Type*) := List (Frame α)

def Frame.fill (f : Frame α) (t : ColorTree α) : ColorTree α := node f.c f.x (pair f.side t f.sib)

def plug : Path α → ColorTree α → ColorTree α
  | [], t => t
  | f :: p, t => plug p (f.fill t)

namespace Path

/-- What comes before the hole in order, and what comes after it. -/
def before : Path α → List α
  | [] => []
  | f :: p => before p ++ if f.side then f.sib.inorder ++ [f.x] else []

def after : Path α → List α
  | [] => []
  | f :: p => (if f.side then [] else f.x :: f.sib.inorder) ++ after p

/-- All nodes outside the hole. -/
def nodes : Path α → List α
  | [] => []
  | f :: p => f.x :: (f.sib.inorder ++ nodes p)

def blacks : Path α → Nat
  | [] => 0
  | f :: p => blacks p + if f.c = .black then 1 else 0

/-- The hole takes a tree of colour `c` and black height `n`; the tree around it has a black root. -/
def Fits : Path α → Color → Nat → Prop
  | [], c, _ => c = .black
  | ⟨_, .red, _, sib⟩ :: p, c, n => (c = .black ∧ sib.color = .black ∧ Bal sib n) ∧ Fits p .red n
  | ⟨_, .black, _, sib⟩ :: p, _, n => Bal sib n ∧ Fits p .black (n + 1)

/-- No subtree beside the path reaches deeper than `m`. -/
def SibsLe (m : Nat) : Path α → Prop
  | [] => True
  | f :: p => (List.length p + 1 + f.sib.depth ≤ m) ∧ SibsLe m p

end Path

open RedBlack.Path

@[simp] theorem plug_nil (t : ColorTree α) : plug [] t = t := rfl
theorem plug_cons (f : Frame α) (p : Path α) (t : ColorTree α) : plug (f :: p) t = plug p (f.fill t) := rfl

/-- A tree and its sibling trade the focus. -/
theorem plug_swap (f : Frame α) (p : Path α) (t : ColorTree α) :
    plug (f :: p) t = plug (⟨!f.side, f.c, f.x, t⟩ :: p) f.sib := by
  rw [plug_cons, plug_cons, Frame.fill, Frame.fill, pair_swap]

theorem plug_append (p q : Path α) (t : ColorTree α) : plug (p ++ q) t = plug q (plug p t) := by
  induction p generalizing t with
  | nil => rfl
  | cons f p ih => exact ih (f.fill t)

theorem inorder_plug (p : Path α) (t : ColorTree α) : (plug p t).inorder = before p ++ t.inorder ++ after p := by
  induction p generalizing t with
  | nil => simp [before, after]
  | cons f p ih =>
    rw [plug_cons, ih, Frame.fill, inorder_pair]
    cases hs : f.side <;> simp [before, after, hs]

theorem inorder_fill_perm (f : Frame α) (t : ColorTree α) :
    (f.fill t).inorder.Perm (t.inorder ++ f.x :: f.sib.inorder) := by
  rw [Frame.fill, inorder_pair]
  split
  · exact List.perm_append_comm.trans List.perm_middle.symm
  · exact List.Perm.refl _

/-- A plugged tree has the nodes of the tree and those of the path. -/
theorem inorder_plug_perm (p : Path α) (t : ColorTree α) : (plug p t).inorder.Perm (t.inorder ++ nodes p) := by
  induction p generalizing t with
  | nil => simp [nodes]
  | cons f p ih =>
    refine (ih (f.fill t)).trans (((inorder_fill_perm f t).append_right _).trans ?_)
    simp [nodes]

theorem mem_plug {p : Path α} {t : ColorTree α} : y ∈ (plug p t).inorder ↔ y ∈ t.inorder ∨ y ∈ nodes p := by
  rw [(inorder_plug_perm p t).mem_iff, List.mem_append]

theorem nodup_plug {p : Path α} {t : ColorTree α} :
    (plug p t).inorder.Nodup ↔ t.inorder.Nodup ∧ (nodes p).Nodup ∧ ∀ y ∈ t.inorder, y ∉ nodes p := by
  rw [(inorder_plug_perm p t).nodup_iff, List.nodup_append]
  exact and_congr_right fun _ => and_congr_right fun _ =>
    ⟨fun h y hy hy' => h y hy y hy' rfl, fun h y hy z hz e => h y hy (e ▸ hz)⟩

/-! ## Colours and black heights around a hole -/

namespace Path.Fits

variable {p : Path α} {f : Frame α} {c : Color} {n : Nat} {t : ColorTree α}

theorem cons_red (h : Fits (f :: p) c n) (hf : f.c = .red) :
    c = .black ∧ f.sib.color = .black ∧ Bal f.sib n ∧ Fits p .red n := by
  obtain ⟨s, cf, x, sib⟩ := f
  obtain rfl : cf = .red := hf
  exact ⟨h.1.1, h.1.2.1, h.1.2.2, h.2⟩

theorem cons_black (h : Fits (f :: p) c n) (hf : f.c = .black) : Bal f.sib n ∧ Fits p .black (n + 1) := by
  obtain ⟨s, cf, x, sib⟩ := f
  obtain rfl : cf = .black := hf
  exact h

theorem bal_sib (h : Fits (f :: p) c n) : Bal f.sib n := by
  cases hf : f.c with
  | red => exact (h.cons_red hf).2.2.1
  | black => exact (h.cons_black hf).1

/-- Next to a black node any colour goes. -/
theorem of_black (h : Fits (f :: p) c n) (hf : f.c = .black) (c' : Color) : Fits (f :: p) c' n := by
  obtain ⟨s, cf, x, sib⟩ := f
  obtain rfl : cf = .black := hf
  exact h

/-- Above a hole for a red node there is a black one. -/
theorem exists_cons (h : Fits p .red n) : ∃ g q, p = g :: q ∧ g.c = .black ∧ Bal g.sib n ∧ Fits q .black (n + 1) := by
  cases p with
  | nil => simp [Fits] at h
  | cons g q =>
    cases hg : g.c with
    | red => have := (h.cons_red hg).1; simp at this
    | black =>
      obtain ⟨h1, h2⟩ := h.cons_black hg
      exact ⟨g, q, rfl, hg, h1, h2⟩

/-- A hole for a red node takes a black one. -/
theorem to_black (h : Fits p c n) : Fits p .black n := by
  cases p with
  | nil => rfl
  | cons f p =>
    cases hf : f.c with
    | red => exact (h.cons_red hf).1 ▸ h
    | black => exact h.of_black hf _

theorem bal_fill (h : Fits (f :: p) c n) (ht : Bal t n) (hc : t.color = c) :
    ∃ m, Bal (f.fill t) m ∧ Fits p (f.fill t).color m ∧ m + blacks p = n + blacks (f :: p) := by
  cases hf : f.c with
  | red =>
    obtain ⟨rfl, hs, hb, hp⟩ := h.cons_red hf
    refine ⟨n, ?_, by simpa [Frame.fill, hf] using hp, by simp [blacks, hf]⟩
    rw [Frame.fill, hf]; exact bal_red.2 ⟨⟨ht, hc⟩, hb, hs⟩
  | black =>
    obtain ⟨hb, hp⟩ := h.cons_black hf
    refine ⟨n + 1, ?_, by simpa [Frame.fill, hf] using hp, by simp [blacks, hf]; omega⟩
    rw [Frame.fill, hf]; exact bal_black.2 ⟨ht, hb⟩

/-- **What `Fits` is for.** -/
theorem bal_plug (h : Fits p c n) (ht : Bal t n) (hc : t.color = c) :
    Bal (plug p t) (n + blacks p) ∧ (plug p t).color = .black := by
  induction p generalizing t c n with
  | nil => exact ⟨by simpa [blacks] using ht, hc.trans h⟩
  | cons f p ih =>
    obtain ⟨m, hb, hp, hm⟩ := h.bal_fill ht hc
    rw [plug_cons, ← hm]
    exact ih hp hb rfl

/-- Conversely, every hole in a red-black tree fits what is in it. -/
theorem of_bal_plug (h : Bal (plug p t) m) (hc : (plug p t).color = .black) :
    ∃ n, Bal t n ∧ Fits p t.color n ∧ n + blacks p = m := by
  induction p generalizing t with
  | nil => exact ⟨m, h, hc, by simp [blacks]⟩
  | cons f p ih =>
    obtain ⟨n, hb, hp, hm⟩ := ih h hc
    obtain ⟨s, cf, x, sib⟩ := f
    cases cf with
    | red =>
      obtain ⟨⟨h1, h2⟩, h3, h4⟩ := bal_red.1 hb
      exact ⟨n, h1, ⟨⟨h2, h4, h3⟩, hp⟩, by simpa [blacks] using hm⟩
    | black =>
      obtain ⟨k, rfl, hk⟩ := id hb
      obtain ⟨h1, h2⟩ := bal_black.1 hb
      exact ⟨k, h1, ⟨h2, hp⟩, by simp [blacks]; omega⟩

/-- On the way down to a hole, red nodes at most double the length. -/
theorem length_le (h : Fits p c n) : List.length p ≤ 2 * blacks p ∧ (c = .red → List.length p + 1 ≤ 2 * blacks p) := by
  induction p generalizing c n with
  | nil => obtain rfl : c = .black := h; simp
  | cons f p ih =>
    cases hf : f.c with
    | red =>
      obtain ⟨rfl, -, -, hp⟩ := h.cons_red hf
      have := (ih hp).2 rfl
      simp [blacks, hf]; omega
    | black =>
      have := (ih (h.cons_black hf).2).1
      simp only [blacks, hf, if_true, List.length_cons]
      refine ⟨?_, fun _ => ?_⟩ <;> omega

end Path.Fits

/-! ## Depth around a hole -/

theorem depth_plug_le {p : Path α} {t : ColorTree α} :
    (plug p t).depth ≤ m ↔ List.length p + t.depth ≤ m ∧ SibsLe m p := by
  induction p generalizing t with
  | nil => simp [SibsLe]
  | cons f p ih =>
    have hfill : ∀ k, (f.fill t).depth ≤ k ↔ t.depth + 1 ≤ k ∧ f.sib.depth + 1 ≤ k := fun k => depth_pair_le
    have h := hfill (m - List.length p)
    rw [plug_cons, ih, SibsLe, List.length_cons]
    constructor
    · rintro ⟨h1, h2⟩
      have := h.1 (by omega)
      exact ⟨by omega, by omega, h2⟩
    · rintro ⟨h1, h2, h3⟩
      have := h.2 ⟨by omega, by omega⟩
      exact ⟨by omega, h3⟩

end RedBlack
