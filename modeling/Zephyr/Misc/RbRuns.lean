import Zephyr.Misc.RbRemove
import Mathlib.Logic.Relation
import Zephyr.Lib.Runs
/-!
# `rbtree`: queries, and every sequence of insertions and removals

`RB_FOR_EACH` keeps the whole way from the root to the current node, with a flag per entry that says
whether it is a left child (`entries`); the nodes still to come are the right subtree and what is
after the path.

Over runs the nodes in the tree are those that `get_child` leads to from the root (`InTree`). A node is
inserted only when it is not in the tree, and the memory of nodes outside the tree may change at any
time: a `struct rbnode` is part of its owner's structure.
-/
namespace Zephyr

open RedBlack RedBlack.ColorTree RedBlack.Path

variable {α : Type*}

/-! ## `rb_contains`, `rb_get_min`, `rb_get_max` -/

variable {lt : α → α → Bool} {H : Heap α} {T : ColorTree α} {t : RbTree α} {s : Heap α × RbTree α}

/-- **`rb_contains` (rb.c:501)** in an ordered tree answers membership. -/
theorem rbContainsLoop_eq [DecidableEq α] [IsStrictTotalOrder α fun a b => lt a b = true] {x : α} :
    ∀ {fuel : Nat}, Holds H T → Sorted lt T.inorder → T.depth < fuel →
      rbContainsLoop lt H x fuel T.root? = some (decide (x ∈ T.inorder)) := by
  induction T with
  | nil => intro fuel _ _ hf; obtain ⟨f, rfl⟩ := Nat.exists_eq_add_of_lt hf; rfl
  | node c y ch ih =>
    intro fuel hH hs hf
    obtain ⟨fuel, rfl⟩ : ∃ k, fuel = k + 1 := ⟨fuel - 1, by omega⟩
    rw [inorder_node] at hs ⊢
    obtain ⟨hbefore, hafter⟩ := hs.mid
    obtain ⟨hsl, hsr, -⟩ := List.pairwise_append.1 hs
    simp only [root?_node, rbContainsLoop, Heap.getChild, hH.1]
    by_cases hyx : y = x
    · simp [hyx]
    · have hd := fun s => depth_child_lt c y ch s
      rw [if_neg hyx]
      cases hlt : lt y x with
      | true =>
        have hleft : x ∉ (ch false).inorder := fun hm => by simp [lt_asymm' (hbefore x hm)] at hlt
        rw [ih true (hH.2 true) hsr.of_cons (by have := hd true; omega)]
        simp [hleft, Ne.symm hyx]
      | false =>
        have hright : x ∉ (ch true).inorder := fun hm => by simp [hafter x hm] at hlt
        rw [ih false (hH.2 false) hsl (by have := hd false; omega)]
        simp [hright, Ne.symm hyx]

/-- **`_rb_get_minmax` (rb.c:99)** goes to the end of the chosen side. -/
theorem rbGetMinmaxLoop_eq {side : Bool} : ∀ {k : Nat}, Holds H T → T.depth < k →
    rbGetMinmaxLoop H side k T.root? = some (if side then T.inorder.getLast? else T.inorder.head?) := by
  induction T with
  | nil => intro fuel _ hf; obtain ⟨f, rfl⟩ := Nat.exists_eq_add_of_lt hf; cases side <;> rfl
  | node c y ch ih =>
    intro fuel hH hf
    obtain ⟨fuel, rfl⟩ : ∃ k, fuel = k + 1 := ⟨fuel - 1, by omega⟩
    have hd := depth_child_lt c y ch side
    have hih := ih side (k := fuel) (hH.2 side) (by omega)
    simp only [root?_node, rbGetMinmaxLoop, Heap.getChild, hH.1]
    cases hc : ch side with
    | nil =>
      cases side with
      | true => simp [inorder_node, hc]
      | false => simp [inorder_node, hc]
    | node c' z ch' =>
      rw [hc] at hih
      simp only [root?_node] at hih ⊢
      rw [hih]
      cases side with
      | true => rw [inorder_node c y ch, hc]; simp [inorder_node, List.getLast?_append, List.getLast?_cons]
      | false => rw [inorder_node c y ch, hc]; simp [inorder_node]

/-! ## `RB_FOR_EACH` -/

/-- The way from the root to `y` at `p`, each entry with its `is_left` flag. -/
def entries (y : α) : Path α → RbForeach α
  | [] => [(y, false)]
  | f :: p => (y, !f.side) :: entries f.x p

/-- The entries that lead to a position. -/
def entriesOf : Path α × ColorTree α → RbForeach α
  | (_, .nil) => []
  | (p, .node _ y _) => entries y p

@[simp] theorem length_entries (y : α) (p : Path α) : (entries y p).length = p.length + 1 := by
  induction p generalizing y with
  | nil => rfl
  | cons f p ih => simp [entries, ih]

theorem entries_eq (y : α) (p : Path α) : ∃ l f, entries y p = (y, l) :: f := by
  cases p <;> exact ⟨_, _, rfl⟩

theorem leftLimbLoop_eq {t : ColorTree α} : ∀ {c y ch} (p : Path α) (room : Nat), t = .node c y ch → Holds H t →
    t.depth ≤ room + 1 → leftLimbLoop H room (entries y p) = some (entriesOf (endPath false t p)) := by
  induction t with
  | nil => intro _ _ _ _ _ h; simp at h
  | node c y ch ih =>
    rintro _ _ _ p room ⟨⟩ ⟨hy, hch⟩ hd
    have hdc := depth_child_lt c y ch false
    have hget : H.getChild y false = (ch false).root? := by rw [Heap.getChild, hy]
    obtain ⟨l, f, he⟩ := entries_eq y p
    rw [he]
    unfold leftLimbLoop
    cases hc : ch false with
    | nil => simp [hget, hc, endPath, entriesOf, he]
    | node c' z ch' =>
      rw [hc] at hdc
      cases room with
      | zero => simp [depth] at hdc hd; omega
      | succ room =>
        have := ih false (⟨false, c, y, ch true⟩ :: p) room hc (hch _) (by rw [hc]; omega)
        simp only [hget, hc, root?_node, endPath, Bool.not_false]
        rw [hc, entries, he] at this
        exact this

/-- From a node without a right child on: up to the nearest node reached from its left. -/
theorem popRight_entries (y : α) (p : Path α) :
    (after p = [] ∧ popRight (entries y p) = []) ∨
      ∃ q f p', p = q ++ f :: p' ∧ f.side = false ∧ after p = f.x :: f.sib.inorder ++ after p' ∧
        popRight (entries y p) = entries f.x p' := by
  induction p generalizing y with
  | nil => exact .inl ⟨rfl, rfl⟩
  | cons f p ih =>
    obtain ⟨l, r, he⟩ := entries_eq f.x p
    cases hs : f.side with
    | false =>
      refine .inr ⟨[], f, p, rfl, hs, by simp [after, hs], ?_⟩
      simp [entries, hs, he, popRight]
    | true =>
      have hpop : popRight (entries y (f :: p)) = popRight (entries f.x p) := by
        simp [entries, hs, he, popRight]
      have hafter : after (f :: p) = after p := by simp [after, hs]
      rw [hpop, hafter]
      rcases ih f.x with h | ⟨q, g, p', rfl, h⟩
      · exact .inl h
      · exact .inr ⟨f :: q, g, p', rfl, h⟩

/-- Down the left side of a subtree: the first of its nodes, which is next in order. -/
theorem stackLeftLimb_eq {p : Path α} {u : ColorTree α} {r : α} {g : RbForeach α} (h : RbRep H t (plug p u))
    (hr : u.root? = some r) (hg : entries r p = (r, false) :: g) :
    ∃ q c z ch, stackLeftLimb H t.maxDepth r g = some (entries z (q ++ p)) ∧ plug (q ++ p) (.node c z ch) = plug p u ∧
      u.inorder ++ after p = z :: ((ch true).inorder ++ after (q ++ p)) := by
  have hlen := length_entries r p
  rw [hg, List.length_cons] at hlen
  cases u with
  | nil => simp at hr
  | node c y ch =>
    obtain rfl : y = r := by simpa using hr
    have hd := (depth_plug_le.1 h.range.depth).1
    have hpos : 0 < (node c y ch).depth := by simp [depth]
    obtain ⟨q, c', z, ch', e, hq, hn, hend⟩ := endPath_spec (s := false) p (t := .node c y ch) (by simp)
    refine ⟨q, c', z, ch', ?_, by rw [plug_append, hq], ?_⟩
    · unfold stackLeftLimb
      rw [if_pos (by omega), ← hg, leftLimbLoop_eq p _ rfl (holds_plug.1 h.holds).2 (by omega), e]
      rfl
    · have hb : before q = [] := hend
      rw [← hq, inorder_plug, hb, inorder_node, hn, after_append]
      simp

/-- One step of the iteration: the next node, and what is left after it. -/
theorem rbForeachNext_eq {p : Path α} {c : Color} {y : α} {ch : Bool → ColorTree α}
    (h : RbRep H t (plug p (.node c y ch))) :
    ((ch true).inorder ++ after p = [] ∧ rbForeachNext H t (entries y p) = some []) ∨
      ∃ q c' z ch', rbForeachNext H t (entries y p) = some (entries z q) ∧
      plug q (.node c' z ch') = plug p (.node c y ch) ∧
        (ch true).inorder ++ after p = z :: ((ch' true).inorder ++ after q) := by
  obtain ⟨l, f, he⟩ := entries_eq y p
  have hroot := h.root.trans (root_plug p c y ch)
  rw [List.getLast?_cons] at hroot
  have hget : H.getChild y true = (ch true).root? := by rw [Heap.getChild, (holds_plug.1 h.holds).2.1]
  cases hr : (ch true).root? with
  | some r =>
    -- into the right subtree
    have hplug : plug (⟨true, c, y, ch false⟩ :: p) (ch true) = plug p (.node c y ch) := by
      rw [plug_cons, Frame.fill]
      exact congrArg (fun k => plug p (.node c y k)) (pair_eta true ch)
    obtain ⟨q, c', z, ch', hs, hq, hin⟩ := stackLeftLimb_eq (hplug ▸ h) hr rfl
    refine .inr ⟨_, c', z, ch', ?_, hq.trans hplug, hin⟩
    rw [← hs]
    simp only [he, rbForeachNext, hroot, hget, hr]
  | none =>
    have hnil := root?_eq_none.1 hr
    have hpop : rbForeachNext H t (entries y p) = some (popRight (entries y p)) := by
      simp only [he, rbForeachNext, hroot, hget, hr, Option.some.injEq]
      cases p with
      | nil => cases he; rfl
      | cons g p =>
        obtain ⟨l', r', hr'⟩ := entries_eq g.x p
        cases he
        cases g.side <;> simp [hr', popRight]
    rw [hpop, hnil, inorder_nil, List.nil_append]
    rcases popRight_entries y p with ⟨h1, h2⟩ | ⟨q, g, p', rfl, hs, h1, h2⟩
    · exact .inl ⟨h1, by rw [h2]⟩
    · refine .inr ⟨p', g.c, g.x, pair g.side (plug q (.node c y ch)) g.sib, by rw [h2], ?_, ?_⟩
      · rw [plug_append, plug_cons, Frame.fill]
      · rw [h1, hs]; rfl

theorem rbForEachFrom_eq (h : RbRep H t T) : ∀ (fuel : Nat) {p : Path α} {c : Color} {y : α} {ch : Bool → ColorTree α},
    plug p (.node c y ch) = T → ((ch true).inorder ++ after p).length < fuel →
    rbForEachFrom H t fuel (entries y p) = some ((ch true).inorder ++ after p) := by
  intro fuel
  induction fuel with
  | zero => intro p c y ch _ hf; omega
  | succ fuel ih =>
    intro p c y ch hT hf
    unfold rbForEachFrom
    rcases rbForeachNext_eq (hT ▸ h) with ⟨hin, hnext⟩ | ⟨q, c', z, ch', hnext, hq, hin⟩
    · simp [hnext, hin]
    · rw [hin] at hf ⊢
      obtain ⟨l, g, he⟩ := entries_eq z q
      have hrest := ih (hq.trans hT) (by simpa using hf)
      rw [he] at hrest
      simp [hnext, he, hrest]

/-- **`RB_FOR_EACH` (rb.h:164)** visits the nodes in order, and its arrays are large enough. -/
theorem rbForEach_eq (h : RbRep H t T) {fuel : Nat} (hf : T.inorder.length < fuel) :
    rbForEach H t fuel = some T.inorder := by
  obtain ⟨fuel, rfl⟩ : ∃ k, fuel = k + 1 := ⟨fuel - 1, by omega⟩
  unfold rbForEach rbForEachFrom
  cases hr : T.root? with
  | none =>
    obtain rfl := root?_eq_none.1 hr
    simp [rbForeachNext, h.root]
  | some r =>
    obtain ⟨q, c, z, ch, hs, hq, hin⟩ := stackLeftLimb_eq (p := []) (u := T) h hr rfl
    simp only [List.append_nil, after] at hs hq hin
    obtain ⟨l, g, he⟩ := entries_eq z q
    rw [hin] at hf ⊢
    have hrest := rbForEachFrom_eq h fuel hq (by simpa using hf)
    rw [he] at hs hrest
    simp [rbForeachNext, h.root, hr, hs, hrest]

/-- **`_rb_walk` (rb.c:482)** visits the nodes in order. -/
theorem rbWalk_eq : ∀ {T : ColorTree α} {fuel : Nat}, Holds H T → T.depth ≤ fuel →
    rbWalk H fuel T.root? = some T.inorder := by
  intro T
  induction T with
  | nil => intro fuel _ _; cases fuel <;> rfl
  | node c y ch ih =>
    intro fuel hH hf
    have hd := depth_child_lt c y ch
    obtain ⟨fuel, rfl⟩ : ∃ k, fuel = k + 1 := ⟨fuel - 1, by have := hd true; omega⟩
    have hchild : ∀ s, rbWalk H fuel (H.getChild y s) = some (ch s).inorder := by
      intro s
      rw [Heap.getChild, hH.1]
      apply ih s (hH.2 s)
      have := hd s
      omega
    simp only [root?_node, rbWalk, hchild, inorder_node]
    rfl

/-! ## The nodes in the tree -/

/-- `get_child` leads from `r` to here. -/
inductive Reach (H : Heap α) (r : α) : α → Prop where
  | refl : Reach H r r
  | child {y z : α} {s : Bool} : Reach H r y → H.getChild y s = some z → Reach H r z

def InTree (s : Heap α × RbTree α) (x : α) : Prop := ∃ r, s.2.root = some r ∧ Reach s.1 r x

theorem Holds.child_mem (h : Holds H T) {y z : α} {s : Bool} (hy : y ∈ T.inorder)
    (hz : H.getChild y s = some z) : z ∈ T.inorder := by
  induction T with
  | nil => simp at hy
  | node c x ch ih =>
    rcases (mem_inorder_node s).1 hy with rfl | hy | hy
    · rw [Heap.getChild, h.1] at hz
      exact (mem_inorder_node s).2 (.inr (.inl (root?_mem hz)))
    · exact (mem_inorder_node s).2 (.inr (.inl (ih s (h.2 s) hy)))
    · exact (mem_inorder_node s).2 (.inr (.inr (ih (!s) (h.2 _) hy)))

theorem Reach.trans {a b c : α} (h1 : Reach H a b) (h2 : Reach H b c) : Reach H a c := by
  induction h2 with
  | refl => exact h1
  | child _ hc ih => exact ih.child hc

theorem Holds.reach (h : Holds H T) {r x : α} (hr : T.root? = some r) (hx : x ∈ T.inorder) : Reach H r x := by
  induction T generalizing r with
  | nil => simp at hx
  | node c y ch ih =>
    obtain rfl : y = r := by simpa using hr
    have hsub : ∀ s, x ∈ (ch s).inorder → Reach H y x := by
      intro s hs
      cases hroot : (ch s).root? with
      | none => simp [root?_eq_none.1 hroot] at hs
      | some z =>
        exact Reach.trans (Reach.refl.child (s := s) (by rw [Heap.getChild, h.1]; exact hroot)) (ih s (h.2 s) hroot hs)
    rcases (mem_inorder_node false).1 hx with rfl | hx | hx
    · exact .refl
    · exact hsub _ hx
    · exact hsub _ hx

theorem inTree_iff (h : Holds H T) (hr : t.root = T.root?) (x : α) : InTree (H, t) x ↔ x ∈ T.inorder := by
  constructor
  · rintro ⟨r, hroot, hreach⟩
    induction hreach with
    | refl => exact root?_mem (hr.symm.trans hroot)
    | child _ hz ih => exact h.child_mem ih hz
  · intro hx
    cases hroot : T.root? with
    | none => simp [root?_eq_none.1 hroot] at hx
    | some r => exact ⟨r, hr.trans hroot, h.reach hroot hx⟩

theorem RbRep.inTree (h : RbRep H t T) (x : α) : InTree (H, t) x ↔ x ∈ T.inorder := inTree_iff h.holds h.root x

theorem RbRep.other {H' : Heap α} (h : RbRep H t T) (hsame : ∀ x, InTree (H, t) x → H' x = H x) :
    RbRep H' t T :=
  ⟨h.holds.congr fun x hx => hsame x ((h.inTree x).2 hx), h.root, h.range, h.nodup⟩

/-! ## What a red-black tree is -/

/-- How many black nodes each way from the root to an empty position meets. -/
def blackCounts : ColorTree α → List Nat
  | .nil => [0]
  | .node c _ ch => (blackCounts (ch false) ++ blackCounts (ch true)).map (· + if c = .black then 1 else 0)

def NoRedRed : ColorTree α → Prop
  | .nil => True
  | .node c _ ch => ∀ s, (c = .red → (ch s).color = .black) ∧ NoRedRed (ch s)

theorem bal_blackCounts {n : Nat} (h : Bal T n) : ∀ k ∈ blackCounts T, k = n := by
  induction T generalizing n with
  | nil => intro k hk; simp [blackCounts] at hk; rw [hk]; exact h.symm
  | node c x ch ih =>
    intro k hk
    simp only [blackCounts, List.mem_map, List.mem_append] at hk
    obtain ⟨j, hj, rfl⟩ := hk
    obtain ⟨s, hj⟩ : ∃ s, j ∈ blackCounts (ch s) := Bool.exists_bool.2 hj
    cases c with
    | red => simpa using ih s (h s).1 j hj
    | black =>
      obtain ⟨m, rfl, hm⟩ := h
      simpa using ih s (hm s) j hj

theorem bal_noRedRed {n : Nat} (h : Bal T n) : NoRedRed T := by
  induction T generalizing n with
  | nil => trivial
  | node c x ch ih =>
    intro s
    cases c with
    | red => exact ⟨fun _ => (h s).2, ih s (h s).1⟩
    | black =>
      obtain ⟨m, rfl, hm⟩ := h
      exact ⟨by simp, ih s (hm s)⟩

/-- Memory holds a red-black tree in the order of `lt`. -/
def RbOk (lt : α → α → Bool) (s : Heap α × RbTree α) : Prop :=
  ∃ T, Holds s.1 T ∧ s.2.root = T.root? ∧ Sorted lt T.inorder ∧ T.color = .black ∧ NoRedRed T ∧
    ∃ n, ∀ k ∈ blackCounts T, k = n

theorem RbRep.ok (h : RbRep H t T) (hs : Sorted lt T.inorder) : RbOk lt (H, t) := by
  obtain ⟨n, hb, -⟩ := h.range.bal
  exact ⟨T, h.holds, h.root, hs, h.range.black, bal_noRedRed hb, n, bal_blackCounts hb⟩

/-! ## Runs -/

variable [DecidableEq α]

/-- One operation on the tree, or a write elsewhere. -/
inductive RbStep (lt : α → α → Bool) : Heap α × RbTree α → Heap α × RbTree α → Prop where
  | insert {H t x s'} : ¬ InTree (H, t) x → rbInsert lt H t x = some s' → RbStep lt (H, t) s'
  | remove {H t x s'} : t.root ≠ none → rbRemove lt H t x = some s' → RbStep lt (H, t) s'
  | other {H H' t} : (∀ x, InTree (H, t) x → H' x = H x) → RbStep lt (H, t) (H', t)

/-- Reached from an empty tree. -/
def RbReachable (lt : α → α → Bool) (s : Heap α × RbTree α) : Prop :=
  ∃ H, Relation.ReflTransGen (RbStep lt) (H, ⟨none, 0⟩) s

/-- What holds of the empty tree and is kept by each step holds of every tree reached. -/
theorem RbReachable.induct {P : Heap α × RbTree α → Prop} (h0 : ∀ H, P (H, ⟨none, 0⟩))
    (hstep : ∀ s s', P s → RbStep lt s s' → P s') (h : RbReachable lt s) : P s := by
  obtain ⟨H, h⟩ := h
  induction h with
  | refl => exact h0 H
  | tail _ hs ih => exact hstep _ _ ih hs

/-- With any comparison, removal leaves a tree, and of its nodes at most the one asked for is gone. -/
theorem rbRemove_any (lt : α → α → Bool) (x : α) (h : RbRep H t T) (hne : t.root ≠ none) :
    ∃ H' t' T', rbRemove lt H t x = some (H', t') ∧ RbRep H' t' T' := by
  have hT : T ≠ .nil := by rintro rfl; exact hne h.root
  obtain ⟨q, r, hloc, hq, -, rfl | ⟨c, ch, rfl⟩⟩ := locate_spec lt x (t := T) []
  · rw [List.append_nil] at hloc
    exact ⟨H, t, T, rbRemove_missed h hT hloc, h⟩
  · rw [List.append_nil] at hloc
    obtain ⟨H', t', T', hrem, hrep, -⟩ := rbRemove_found h hloc hq
    exact ⟨H', t', T', hrem, hrep⟩

theorem RbReachable.rep (h : RbReachable lt s) : ∃ T, RbRep s.1 s.2 T := by
  refine h.induct (P := fun s => ∃ T, RbRep s.1 s.2 T) (fun H => ⟨.nil, trivial, rfl, InRange.nil 0, by simp⟩) ?_
  rintro _ s' ⟨T, hrep⟩ hs
  cases hs with
  | @insert H t x _ hx hop =>
    obtain ⟨q, H', t', T', -, -, hins, hrep', -⟩ := rbInsert_at lt hrep (fun hm => hx ((hrep.inTree x).2 hm))
    cases hins.symm.trans hop
    exact ⟨T', hrep'⟩
  | @remove H t x _ hne hop =>
    obtain ⟨H', t', T', hrem, hrep'⟩ := rbRemove_any lt x hrep hne
    cases hrem.symm.trans hop
    exact ⟨T', hrep'⟩
  | @other H H' t hsame => exact ⟨T, hrep.other hsame⟩

/-- **The scratch arrays are large enough.** Whatever the comparison: in every tree reached, `max_depth`
is at least the depth, and insertion, removal and iteration run to their end without a write past
`stack[max_depth]` or past the last of the `max_depth` entries of an iteration. -/
theorem rbReachable_inBounds (lt : α → α → Bool) {s : Heap α × RbTree α} (h : RbReachable lt s) :
    (∃ T, Holds s.1 T ∧ s.2.root = T.root? ∧ T.depth ≤ s.2.maxDepth) ∧
      (∀ x, ¬ InTree s x → rbInsert lt s.1 s.2 x ≠ none) ∧
      (s.2.root ≠ none → ∀ x, rbRemove lt s.1 s.2 x ≠ none) ∧
      ∃ l, ∀ fuel, l.length < fuel → rbForEach s.1 s.2 fuel = some l := by
  obtain ⟨T, hrep⟩ := h.rep
  refine ⟨⟨T, hrep.holds, hrep.root, hrep.range.depth⟩, fun x hx => ?_, fun hne x => ?_,
    T.inorder, fun fuel hf => rbForEach_eq hrep hf⟩
  · obtain ⟨q, H', t', T', -, -, hins, -⟩ := rbInsert_at lt hrep (fun hm => hx ((hrep.inTree x).2 hm))
    simp [hins]
  · obtain ⟨H', t', T', hrem, -⟩ := rbRemove_any lt x hrep hne
    simp [hrem]

theorem RbReachable.walk {lt : α → α → Bool} {s : Heap α × RbTree α} (h : RbReachable lt s) :
    ∃ l, rbWalk s.1 s.2.maxDepth s.2.root = some l ∧ ∀ x, InTree s x ↔ x ∈ l := by
  obtain ⟨T, hrep⟩ := h.rep
  exact ⟨T.inorder, by rw [hrep.root]; exact rbWalk_eq hrep.holds hrep.range.depth, hrep.inTree⟩

/-- The first six numbers are inserted in turn, with two rotations, and the first one is removed, with one more. -/
def rotated : Option (Heap Nat × RbTree Nat) := do
  let s ← (List.range 6).foldlM (fun s x => rbInsert (fun a b => decide (a < b)) s.1 s.2 x)
    (fun _ => ⟨fun _ => none, .red⟩, ⟨none, 0⟩)
  rbRemove (fun a b => decide (a < b)) s.1 s.2 0

/-- Nothing is inserted twice. -/
theorem inserted_reachable {s s' : Heap Nat × RbTree Nat} {lt : Nat → Nat → Bool} (h : RbReachable lt s) {xs : List Nat}
    (hnew : Runs.Along (fun s x => rbInsert lt s.1 s.2 x)
      (fun s x => ∀ l ∈ rbWalk s.1 s.2.maxDepth s.2.root, x ∉ l) s xs)
    (hrun : xs.foldlM (fun s x => rbInsert lt s.1 s.2 x) s = some s') : RbReachable lt s' := by
  refine Runs.run_inv (fun s x s' h hx hop => ?_) h hnew hrun
  obtain ⟨l, hwalk, hmem⟩ := h.walk
  obtain ⟨H, h⟩ := h
  exact ⟨H, h.tail (.insert (fun hin => hx l hwalk ((hmem x).1 hin)) hop)⟩

theorem rotated_reachable : ∃ s, rotated = some s ∧ RbReachable (fun a b : Nat => decide (a < b)) s ∧
    rbWalk s.1 s.2.maxDepth s.2.root = some [1, 2, 3, 4, 5] := by
  have hend : rotated.bind (fun s => rbWalk s.1 s.2.maxDepth s.2.root) = some [1, 2, 3, 4, 5] := by decide +kernel
  obtain ⟨s, hs, hwalk⟩ := Option.bind_eq_some_iff.1 hend
  refine ⟨s, hs, ?_, hwalk⟩
  obtain ⟨s₁, h₁, hrem⟩ := Option.bind_eq_some_iff.1 hs
  have hroot : (some s₁).map (fun s => s.2.root.isSome) = some true := by
    rw [← h₁]
    decide +kernel
  obtain ⟨H, h⟩ := inserted_reachable ⟨_, .refl⟩ (by decide +kernel) h₁
  exact ⟨H, h.tail (.remove (Option.isSome_iff_ne_none.1 (Option.some.inj hroot)) hrem)⟩

theorem rbReachable_inBounds_rotated :
    ∃ s, rotated = some s ∧ (∀ x, rbRemove (fun a b : Nat => decide (a < b)) s.1 s.2 x ≠ none) ∧
    ∃ l, ∀ fuel, l.length < fuel → rbForEach s.1 s.2 fuel = some l := by
  obtain ⟨s, hs, hreach, hwalk⟩ := rotated_reachable
  have h := rbReachable_inBounds _ hreach
  refine ⟨s, hs, h.2.2.1 fun hnone => ?_, h.2.2.2⟩
  rw [hnone] at hwalk
  cases hd : s.2.maxDepth <;> simp [hd, rbWalk] at hwalk

/-! ## Ordered trees -/

section ordered

variable {lt : α → α → Bool} [IsStrictTotalOrder α fun a b => lt a b = true] {H : Heap α} {t : RbTree α}
    {T : ColorTree α} {x : α}

theorem rbInsert_sorted (h : RbRep H t T) (hs : Sorted lt T.inorder) (hx : x ∉ T.inorder) :
    ∃ H' t' T', rbInsert lt H t x = some (H', t') ∧ RbRep H' t' T' ∧ Sorted lt T'.inorder ∧
      ∀ z, z ∈ T'.inorder ↔ z = x ∨ z ∈ T.inorder := by
  obtain ⟨A, B, hT, hA, hB⟩ := hs.cut_new hx
  obtain ⟨H', t', T', hins, hrep, hin, -⟩ := rbInsert_spec h hT hx (fun a ha => lt_asymm' (hA a ha)) hB
  refine ⟨H', t', T', hins, hrep, hin ▸ (hT ▸ hs).insert hA hB, fun z => ?_⟩
  rw [hin, hT]
  simp only [List.mem_append, List.mem_cons]
  tauto

theorem rbRemove_sorted (h : RbRep H t T) (hs : Sorted lt T.inorder) (hx : x ∈ T.inorder) :
    ∃ H' t' T', rbRemove lt H t x = some (H', t') ∧ RbRep H' t' T' ∧ Sorted lt T'.inorder ∧
      ∀ z, z ∈ T'.inorder ↔ z ≠ x ∧ z ∈ T.inorder := by
  obtain ⟨A, B, hT⟩ := List.append_of_mem hx
  obtain ⟨hA, hB⟩ := (hT ▸ hs).mid
  obtain ⟨H', t', T', hrem, hrep, hin, -⟩ := rbRemove_spec h hT (fun a ha => lt_asymm' (hA a ha)) hB
  refine ⟨H', t', T', hrem, hrep, hin ▸ (hT ▸ hs).erase, fun z => ?_⟩
  have hnd := h.nodup
  rw [hT, List.nodup_middle, List.nodup_cons, List.mem_append] at hnd
  rw [hin, hT]
  simp only [List.mem_append, List.mem_cons]
  constructor
  · intro hz
    exact ⟨by rintro rfl; exact hnd.1 hz, by tauto⟩
  · rintro ⟨hz, h1⟩
    tauto

theorem rbRemove_absent (h : RbRep H t T) (hs : Sorted lt T.inorder) (hne : t.root ≠ none) (hx : x ∉ T.inorder) :
    rbRemove lt H t x = some (H, t) := by
  obtain ⟨A, B, hT, hA, hB⟩ := hs.cut_new hx
  obtain ⟨q, hloc, -⟩ := locate_new lt [] (fun a ha => lt_asymm' (hA a ha)) hB hT hx
  exact rbRemove_missed h (by rintro rfl; exact hne h.root) hloc

theorem RbReachable.sorted (h : RbReachable lt s) : ∃ T, RbRep s.1 s.2 T ∧ Sorted lt T.inorder := by
  refine h.induct (P := fun s => ∃ T, RbRep s.1 s.2 T ∧ Sorted lt T.inorder)
    (fun H => ⟨.nil, ⟨trivial, rfl, InRange.nil 0, by simp⟩, List.Pairwise.nil⟩) ?_
  rintro _ s' ⟨T, hrep, hs⟩ hstep
  cases hstep with
  | @insert H t x _ hx hop =>
    obtain ⟨H', t', T', hins, hrep', hs', -⟩ :=
      rbInsert_sorted hrep hs (fun hm => hx ((hrep.inTree x).2 hm))
    cases hins.symm.trans hop
    exact ⟨T', hrep', hs'⟩
  | @remove H t x _ hne hop =>
    by_cases hx : x ∈ T.inorder
    · obtain ⟨H', t', T', hrem, hrep', hs', -⟩ := rbRemove_sorted hrep hs hx
      cases hrem.symm.trans hop
      exact ⟨T', hrep', hs'⟩
    · obtain rfl : (H, t) = s' := Option.some.inj ((rbRemove_absent hrep hs hne hx).symm.trans hop)
      exact ⟨T, hrep, hs⟩
  | @other H H' t hsame => exact ⟨T, hrep.other hsame, hs⟩

end ordered

/-! ## Every tree reached -/

/-- **The iteration is the walk.** Whatever the comparison: in every tree reached, `RB_FOR_EACH` comes to an
end and has visited the nodes that `_rb_walk` visits, in the same order: each node of the tree once, and
from the smallest to the largest if the comparison is an order. -/
theorem rbForEach_eq_rbWalk (lt : α → α → Bool) {s : Heap α × RbTree α} (h : RbReachable lt s) :
    ∃ l, (∀ fuel, s.2.maxDepth ≤ fuel → rbWalk s.1 fuel s.2.root = some l) ∧
      (∀ fuel, l.length < fuel → rbForEach s.1 s.2 fuel = some l) ∧
      l.Nodup ∧ (∀ x, x ∈ l ↔ InTree s x) ∧ (IsStrictTotalOrder α (fun a b => lt a b = true) → Sorted lt l) := by
  have hwalk : ∀ {T : ColorTree α}, RbRep s.1 s.2 T → ∀ fuel, s.2.maxDepth ≤ fuel →
    rbWalk s.1 fuel s.2.root = some T.inorder := by
    intro T hrep fuel hf
    rw [hrep.root]
    exact rbWalk_eq hrep.holds (hrep.range.depth.trans hf)
  obtain ⟨T, hrep⟩ := h.rep
  refine ⟨T.inorder, hwalk hrep, fun fuel hf => rbForEach_eq hrep hf, hrep.nodup,
    fun x => (hrep.inTree x).symm, fun hlt => ?_⟩
  obtain ⟨T', hrep', hs⟩ := h.sorted
  have heq := (hwalk hrep _ le_rfl).symm.trans (hwalk hrep' _ le_rfl)
  rwa [Option.some.inj heq]

theorem rbForEach_eq_rbWalk_rotated : ∃ s, rotated = some s ∧ rbForEach s.1 s.2 6 = some [1, 2, 3, 4, 5] := by
  obtain ⟨s, hs, hreach, hwalk⟩ := rotated_reachable
  obtain ⟨l, hl, heach, -⟩ := rbForEach_eq_rbWalk _ hreach
  obtain rfl := Option.some.inj ((hl _ le_rfl).symm.trans hwalk)
  exact ⟨s, hs, heach 6 (by decide)⟩

/-- **The red-black tree is one, and a sorted set.** In every tree reached, insertion of a new node and
removal of a node change the set of nodes by that node and leave a red-black tree; `rb_contains`,
`rb_get_min` and `rb_get_max` answer for the set. -/
theorem rbReachable_correct {lt : α → α → Bool} [IsStrictTotalOrder α fun a b => lt a b = true] {s : Heap α × RbTree α}
    (h : RbReachable lt s) :
    RbOk lt s ∧
      (∀ x, ¬ InTree s x → ∃ s', rbInsert lt s.1 s.2 x = some s' ∧ RbOk lt s' ∧ ∀ z, InTree s' z ↔ z = x ∨ InTree s z) ∧
      (∀ x, InTree s x → ∃ s', rbRemove lt s.1 s.2 x = some s' ∧ RbOk lt s' ∧ ∀ z, InTree s' z ↔ z ≠ x ∧ InTree s z) ∧
      ∀ fuel, s.2.maxDepth < fuel →
        (∀ x, ∃ b, rbContains lt s.1 s.2 x fuel = some b ∧ (b = true ↔ InTree s x)) ∧
        (∃ m, rbGetMinmax s.1 s.2 false fuel = some m ∧ Extreme (fun a b => lt a b = true) (InTree s) m) ∧
        ∃ m, rbGetMinmax s.1 s.2 true fuel = some m ∧ Extreme (fun a b => lt b a = true) (InTree s) m := by
  obtain ⟨T, hrep, hs⟩ := h.sorted
  have hin : ∀ x, InTree s x ↔ x ∈ T.inorder := hrep.inTree
  have hset : InTree s = (· ∈ T.inorder) := funext fun x => propext (hin x)
  have hd := hrep.range.depth
  have hends : ∀ side fuel, s.2.maxDepth < fuel →
      rbGetMinmax s.1 s.2 side fuel = some (if side then T.inorder.getLast? else T.inorder.head?) := by
    intro side fuel hf
    rw [rbGetMinmax, hrep.root, rbGetMinmaxLoop_eq hrep.holds (by omega)]
  refine ⟨hrep.ok hs, fun x hx => ?_, fun x hx => ?_,
    fun fuel hf => ⟨fun x => ?_, ⟨_, hends false fuel hf, ?_⟩, _, hends true fuel hf, ?_⟩⟩
  · obtain ⟨H', t', T', hins, hrep', hs', hmem⟩ := rbInsert_sorted hrep hs (fun hm => hx ((hin x).2 hm))
    refine ⟨(H', t'), hins, hrep'.ok hs', fun z => ?_⟩
    rw [hrep'.inTree, hmem, hin]
  · obtain ⟨H', t', T', hrem, hrep', hs', hmem⟩ := rbRemove_sorted hrep hs ((hin x).1 hx)
    refine ⟨(H', t'), hrem, hrep'.ok hs', fun z => ?_⟩
    rw [hrep'.inTree, hmem, hin]
  · refine ⟨decide (x ∈ T.inorder), ?_, by rw [decide_eq_true_iff, hin]⟩
    rw [rbContains, hrep.root, rbContainsLoop_eq hrep.holds hs (by omega)]
  · rw [hset]; exact hs.extreme_head
  · rw [hset]; exact hs.extreme_getLast

instance decideLt_order : IsStrictTotalOrder Nat fun a b => decide (a < b) = true := by
  simpa using (inferInstance : IsStrictTotalOrder Nat (· < ·))

/-- The root, which has two children, is removed. -/
theorem rbReachable_correct_rotated : ∃ s s', rotated = some s ∧ s.2.root = some 3 ∧
    rbRemove (fun a b : Nat => decide (a < b)) s.1 s.2 3 = some s' ∧ RbOk (fun a b : Nat => decide (a < b)) s' ∧
    ∀ z, InTree s' z ↔ z ≠ 3 ∧ InTree s z := by
  obtain ⟨s, hs, hreach, hwalk⟩ := rotated_reachable
  have hroot : (some s).map (fun s => s.2.root) = some (some 3) := by
    rw [← hs]
    decide +kernel
  have hroot : s.2.root = some 3 := Option.some.inj hroot
  obtain ⟨s', hrem, hok, hmem⟩ := (rbReachable_correct hreach).2.2.1 3 ⟨3, hroot, .refl⟩
  exact ⟨s, s', hs, hroot, hrem, hok, hmem⟩

end Zephyr
