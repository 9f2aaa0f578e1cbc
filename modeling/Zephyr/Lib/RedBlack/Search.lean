import Zephyr.Lib.RedBlack.Remove
import Mathlib.Order.Defs.Unbundled
/-!
# Finding a position, and removing the node that is there

`locate lt x t p` goes down by comparing `x` with the nodes it meets. It is specified without an order
on all of `α`: it is enough that `x` tells the nodes of `t` apart into those before it and those after
it (`locate_new`, `locate_mem`), which a total order does (`split_of_sorted`).

A node with two children changes places with its predecessor before it is dropped (`removeNode`).
-/
namespace RedBlack

open ColorTree RedBlack.Path

variable {α : Type*}

theorem before_append (p q : Path α) : before (p ++ q) = before q ++ before p := by
  induction p with
  | nil => simp [before]
  | cons f p ih => simp [before, ih]

theorem after_append (p q : Path α) : after (p ++ q) = after p ++ after q := by
  induction p with
  | nil => simp [after]
  | cons f p ih => simp [after, ih]

/-! ## Going down -/

variable {A B l : List α} {y x : α} {t u : ColorTree α} {c : Color} {m : Nat} {p : Path α}
    {ch : Bool → ColorTree α} {lt : α → α → Bool}

/-- Two cuts of a list are the same if what stands at the one is not on the wrong side of the other. -/
theorem cut_eq {P P' : α → Prop} {L R : List α} (h : L ++ R = A ++ B) (hA : ∀ a ∈ A, ¬ P' a) (hB : ∀ b ∈ B, ¬ P b)
    (hL : ∀ a ∈ L.getLast?, P a) (hR : ∀ b ∈ R.head?, P' b) : L = A ∧ R = B := by
  obtain ⟨d, rfl, rfl⟩ | ⟨d, rfl, rfl⟩ := List.append_eq_append_iff.1 h
  · cases d with
    | nil => simp
    | cons b d => exact absurd (hR b rfl) (hA b (by simp))
  · rcases List.eq_nil_or_concat d with rfl | ⟨d, b, rfl⟩
    · simp
    · exact absurd (hL b (by simp)) (hB b (by simp))

section
variable [DecidableEq α] (lt : α → α → Bool)

def locate (x : α) : ColorTree α → Path α → Path α × ColorTree α
  | .nil, p => (p, .nil)
  | node c y ch, p => if y = x then (p, node c y ch) else locate x (ch !lt x y) (⟨!lt x y, c, y, ch (lt x y)⟩ :: p)

/-- Whatever the comparison says, the way down is one in the tree, and it ends at `x` or in a hole. -/
theorem locate_spec (x : α) : ∀ p : Path α, ∃ q r, locate lt x t p = (q ++ p, r) ∧ plug q r = t ∧
    (∀ f ∈ q, f.x ≠ x ∧ (!lt x f.x) = f.side) ∧ (r = .nil ∨ ∃ c ch, r = node c x ch) := by
  induction t with
  | nil => exact fun p => ⟨[], .nil, rfl, rfl, by simp, .inl rfl⟩
  | node c y ch ih =>
    intro p
    by_cases hyx : y = x
    · exact ⟨[], node c y ch, by simp [locate, hyx], rfl, by simp, .inr ⟨c, ch, by rw [hyx]⟩⟩
    · obtain ⟨q, r, e, hq, hs, hr⟩ := ih (!lt x y) (⟨!lt x y, c, y, ch (lt x y)⟩ :: p)
      refine ⟨q ++ [⟨!lt x y, c, y, ch (lt x y)⟩], r, ?_, ?_, ?_, hr⟩
      · simp only [locate, hyx, if_false, e, List.append_assoc, List.cons_append, List.nil_append]
      · rw [plug_append, hq]
        have := pair_eta (!lt x y) ch
        rw [Bool.not_not] at this
        exact congrArg (node c y) this
      · intro f hf
        rcases List.mem_append.1 hf with hf | hf
        · exact hs f hf
        · rw [List.mem_singleton.1 hf]
          exact ⟨hyx, rfl⟩

omit [DecidableEq α] in
/-- What stands next to the end of the way has been compared. -/
theorem compared_next {q : Path α} (hq : ∀ f ∈ q, f.x ≠ x ∧ (!lt x f.x) = f.side) :
    (∀ a ∈ (before q).getLast?, a ≠ x ∧ lt x a = false) ∧ ∀ b ∈ (after q).head?, b ≠ x ∧ lt x b = true := by
  induction q with
  | nil => simp [before, after]
  | cons f q ih =>
    obtain ⟨hf, hq⟩ := List.forall_mem_cons.1 hq
    cases hs : f.side with
    | true => exact ⟨by simpa [before, hs] using hf, by simpa [after, hs] using (ih hq).2⟩
    | false => exact ⟨by simpa [before, hs] using (ih hq).1, by simpa [after, hs] using hf⟩

section
variable {A B : List α} (p : Path α) (hA : ∀ a ∈ A, lt x a = false) (hB : ∀ b ∈ B, lt x b = true)

include hA hB

/-- `x` is not there: the hole is the place between what comes before `x` and what comes after it. -/
theorem locate_new (h : t.inorder = A ++ B) (hx : x ∉ t.inorder) :
    ∃ q, locate lt x t p = (q ++ p, .nil) ∧ plug q .nil = t ∧ before q = A ∧ after q = B := by
  obtain ⟨q, r, hloc, rfl, hq, rfl | ⟨c, ch, rfl⟩⟩ := locate_spec lt (t := t) x p
  · obtain ⟨hbefore, hafter⟩ := compared_next lt hq
    rw [inorder_plug, inorder_nil, List.append_nil] at h
    exact ⟨q, hloc, rfl, cut_eq h (fun a ha => by simp [hA a ha]) (fun b hb => by simp [hB b hb]) hbefore hafter⟩
  · simp [inorder_plug, inorder_node] at hx

/-- `x` is there: it is found. -/
theorem locate_mem (h : t.inorder = A ++ x :: B) (hnd : t.inorder.Nodup) :
    ∃ q c ch, locate lt x t p = (q ++ p, node c x ch) ∧ plug q (node c x ch) = t ∧
      before q ++ (ch false).inorder = A ∧ (ch true).inorder ++ after q = B := by
  obtain ⟨q, r, hloc, rfl, hq, rfl | ⟨c, ch, rfl⟩⟩ := locate_spec lt (t := t) x p
  · -- a hole would be next to `x`
    obtain ⟨hbefore, hafter⟩ := compared_next lt hq
    rw [inorder_plug, inorder_nil, List.append_nil, List.append_cons] at h
    have hcut := (cut_eq h (fun a ha => ?_) (fun b hb => by simp [hB b hb]) hbefore hafter).1
    · exact absurd rfl (hbefore x (by simp [hcut])).1
    · rcases List.mem_append.1 ha with ha | ha
      · simp [hA a ha]
      · simp [List.mem_singleton.1 ha]
  · refine ⟨q, c, ch, hloc, rfl, ?_⟩
    have hin : (plug q (node c x ch)).inorder = (before q ++ (ch false).inorder) ++
      x :: ((ch true).inorder ++ after q) := by
      simp [inorder_plug, inorder_node]
    rw [hin] at h hnd
    simp only [List.nodup_append, List.nodup_cons] at hnd
    obtain ⟨hl, -, hr⟩ := (List.append_cons_inj_of_notMem
      (fun hm => hnd.2.2 x (by simpa using hm) x (by simp) rfl) hnd.2.1.1).1 h
    exact ⟨hl, hr⟩

end

end

/-! ## Outermost nodes -/

/-- Down side `s` to the end. -/
def endPath (s : Bool) : ColorTree α → Path α → Path α × ColorTree α
  | .nil, p => (p, .nil)
  | node c y ch, p =>
    match (ch s).root? with
    | none => (p, node c y ch)
    | some _ => endPath s (ch s) (⟨s, c, y, ch !s⟩ :: p)

theorem root?_eq_none : t.root? = none ↔ t = .nil := by
  cases t <;> simp

theorem root?_mem (h : t.root? = some x) : x ∈ t.inorder := by
  cases t with
  | nil => cases h
  | node c y ch =>
    cases h
    simp [inorder_node]

theorem endPath_spec {s : Bool} : ∀ (p : Path α), t ≠ .nil →
    ∃ q c y ch, endPath s t p = (q ++ p, node c y ch) ∧ plug q (node c y ch) = t ∧ ch s = .nil ∧
      (if s then after q else before q) = [] := by
  induction t with
  | nil => exact fun p h => absurd rfl h
  | node c y ch ih =>
    intro p _
    cases hr : (ch s).root? with
    | none => exact ⟨[], c, y, ch, by simp [endPath, hr], rfl, root?_eq_none.1 hr, by cases s <;> rfl⟩
    | some z =>
      have hne : ch s ≠ .nil := fun h => by simp [h] at hr
      obtain ⟨q, c', y', ch', e, hq, hn, hend⟩ := ih s (⟨s, c, y, ch !s⟩ :: p) hne
      refine ⟨q ++ [⟨s, c, y, ch !s⟩], c', y', ch', ?_, ?_, hn, ?_⟩
      · simp [endPath, hr, e]
      · rw [plug_append, hq]
        exact congrArg (node c y) (pair_eta s ch)
      · cases s <;> simpa [after_append, before_append, after, before] using hend

/-! ## Removing the node at a position -/

/-- The tree without the node of colour `c` and children `ch` at `p`. -/
def removeNode (p : Path α) (c : Color) (ch : Bool → ColorTree α) : ColorTree α :=
  match (ch false).root?, (ch true).root? with
  | none, _ => removeAt p c (ch true)
  | _, none => removeAt p c (ch false)
  | some _, some _ =>
    match endPath true (ch false) [] with
    | (_, .nil) => plug p .nil
    | (q, node c' y ch') => removeAt (q ++ ⟨false, c, y, ch true⟩ :: p) c' (ch' false)

/-- Equal up to the names of the nodes. -/
def Alike (t u : ColorTree α) : Prop := t.color = u.color ∧ t.depth = u.depth ∧ ∀ n, Bal t n ↔ Bal u n

theorem Alike.node {s : Bool} {t' : ColorTree α} (h : Alike t t') :
    Alike (.node c x (pair s t u)) (.node c y (pair s t' u)) := by
  obtain ⟨h1, h2, h3⟩ := h
  refine ⟨rfl, ?_, fun n => ?_⟩
  · cases s <;> simp [depth, pair, h2]
  · cases c with
    | red => rw [bal_red, bal_red, h1, h3]
    | black =>
      cases n with
      | zero => simp [Bal]
      | succ n => rw [bal_black, bal_black, h3]

theorem Alike.plug (h : Alike t u) (p : Path α) : Alike (RedBlack.plug p t) (RedBlack.plug p u) := by
  induction p generalizing t u with
  | nil => exact h
  | cons f p ih => exact ih h.node

theorem InRange.alike (h : InRange m t) (ha : Alike t u) : InRange m u := by
  obtain ⟨n, hb, hm⟩ := h.bal
  exact ⟨ha.1 ▸ h.black, ha.2.1 ▸ h.depth, n, (ha.2.2 n).1 hb, hm⟩

/-- A node changes places with the last node of its left subtree. -/
theorem InRange.exchange {q : Path α} {c' : Color} {ch' : Bool → ColorTree α}
    (h : InRange m (plug p (node c x ch))) (hq : plug q (node c' y ch') = ch false) (hn : ch' true = .nil) :
    InRange m (plug (q ++ ⟨false, c, y, ch true⟩ :: p) (node c' x (pair false (ch' false) .nil))) := by
  refine h.alike ?_
  have hleft : Alike (ch false) (plug q (node c' x (pair false (ch' false) .nil))) := by
    rw [← hq, ← hn]
    refine Alike.plug ?_ q
    conv_lhs => rw [← pair_eta false ch']
    exact Alike.node ⟨rfl, rfl, fun _ => Iff.rfl⟩
  rw [plug_append, plug_cons]
  refine Alike.plug ?_ p
  conv_lhs => rw [← pair_eta false ch]
  exact hleft.node

theorem exchange_perm {q : Path α} {c' : Color} {ch' : Bool → ColorTree α}
    (hq : plug q (node c' y ch') = ch false) (hn : ch' true = .nil) :
    (plug (q ++ ⟨false, c, y, ch true⟩ :: p) (node c' x (pair false (ch' false) .nil))).inorder.Perm
      (plug p (node c x ch)).inorder := by
  classical
  rw [inorder_plug, before_append, after_append, inorder_plug, inorder_pair, inorder_node c, ← hq, inorder_plug,
    inorder_node, hn, List.perm_iff_count]
  intro z
  simp [before, after, List.count_append, List.count_cons]
  omega

theorem removeNode_spec
    (h : InRange m (plug p (node c x ch))) :
    InRange m (removeNode p c ch) ∧
      (removeNode p c ch).inorder = before p ++ (ch false).inorder ++ (ch true).inorder ++ after p := by
  have hone : ∀ s, ch (!s) = .nil → InRange m (removeAt p c (ch s)) := by
    intro s hs
    refine removeAt_inRange (x := x) (s := s) ?_
    rw [← hs, pair_eta]; exact h
  unfold removeNode
  cases h0 : (ch false).root? with
  | none =>
    have hnil := root?_eq_none.1 h0
    exact ⟨hone true hnil, by rw [inorder_removeAt, hnil]; simp⟩
  | some a =>
    cases h1 : (ch true).root? with
    | none =>
      have hnil := root?_eq_none.1 h1
      exact ⟨hone false hnil, by rw [inorder_removeAt, hnil]; simp⟩
    | some b =>
      have hne : ch false ≠ .nil := fun e => by simp [e] at h0
      obtain ⟨q, c', y, ch', e, hq, hn, hend⟩ := endPath_spec (s := true) [] hne
      simp only [e, List.append_nil]
      have hin : before q ++ (ch' false).inorder ++ [y] = (ch false).inorder := by
        rw [← hq, inorder_plug, inorder_node, hn]
        have : after q = [] := hend
        simp [this]
      refine ⟨removeAt_inRange (s := false) (h.exchange hq hn), ?_⟩
      · have hq' : after q = [] := hend
        rw [inorder_removeAt, before_append, after_append, hq', ← hin]
        simp [before, after]

/-! ## Ordered trees -/

/-- In order of `lt`. -/
def Sorted (lt : α → α → Bool) (l : List α) : Prop := l.Pairwise fun a b => lt a b = true

/-- A newcomer that compares with everyone cuts a sorted list in two. -/
theorem Sorted.cut (htrans : ∀ a b c, lt a b = true → lt b c = true → lt a c = true)
    (hs : Sorted lt l) (hx : ∀ y ∈ l, lt x y = true ∨ lt y x = true) :
    ∃ A B, l = A ++ B ∧ (∀ a ∈ A, lt a x = true) ∧ ∀ b ∈ B, lt x b = true := by
  induction l with
  | nil => exact ⟨[], [], rfl, by simp, by simp⟩
  | cons y l ih =>
    obtain ⟨hy, hs⟩ := List.pairwise_cons.1 hs
    rcases hx y List.mem_cons_self with hlt | hyx
    · refine ⟨[], y :: l, rfl, by simp, fun b hb => ?_⟩
      rcases List.mem_cons.1 hb with rfl | hb
      · exact hlt
      · exact htrans x y b hlt (hy b hb)
    · obtain ⟨A, B, rfl, hA, hB⟩ := ih hs fun z hz => hx z (List.mem_cons_of_mem _ hz)
      refine ⟨y :: A, B, rfl, fun a ha => ?_, hB⟩
      rcases List.mem_cons.1 ha with rfl | ha
      · exact hyx
      · exact hA a ha

section
variable {lt : α → α → Bool} [IsStrictTotalOrder α fun a b => lt a b = true]

theorem lt_asymm' {a b : α} (h : lt a b = true) : lt b a = false := by
  have := asymm_of (fun a b => lt a b = true) h
  simpa using this

theorem Sorted.cut_new (hs : Sorted lt l) (hx : x ∉ l) :
    ∃ A B, l = A ++ B ∧ (∀ a ∈ A, lt a x = true) ∧ ∀ b ∈ B, lt x b = true := by
  have htrans : ∀ a b c, lt a b = true → lt b c = true → lt a c = true :=
    fun _ _ _ => trans_of (fun a b => lt a b = true)
  refine hs.cut htrans fun y hy => ?_
  rcases trichotomous_of (fun a b => lt a b = true) x y with h | rfl | h
  · exact .inl h
  · exact absurd hy hx
  · exact .inr h

end

theorem Sorted.insert (hs : Sorted lt (A ++ B)) (hA : ∀ a ∈ A, lt a x = true)
    (hB : ∀ b ∈ B, lt x b = true) : Sorted lt (A ++ x :: B) := by
  obtain ⟨h1, h2, h3⟩ := List.pairwise_append.1 hs
  refine List.pairwise_append.2 ⟨h1, List.pairwise_cons.2 ⟨hB, h2⟩, fun a ha b hb => ?_⟩
  rcases List.mem_cons.1 hb with rfl | hb
  · exact hA a ha
  · exact h3 a ha b hb

theorem Sorted.erase (hs : Sorted lt (A ++ x :: B)) : Sorted lt (A ++ B) :=
  hs.sublist ((List.sublist_cons_self _ _).append_left _)

theorem Sorted.mid (hs : Sorted lt (A ++ x :: B)) : (∀ a ∈ A, lt a x = true) ∧ ∀ b ∈ B, lt x b = true := by
  obtain ⟨-, h2, h3⟩ := List.pairwise_append.1 hs
  exact ⟨fun a ha => h3 a ha x (by simp), (List.pairwise_cons.1 h2).1⟩

/-- `m` is the first element of `S` in the order `r`, none when `S` is empty. -/
def Extreme (r : α → α → Prop) (S : α → Prop) : Option α → Prop
  | none => ∀ x, ¬ S x
  | some a => S a ∧ ∀ b, S b → b = a ∨ r a b

theorem Sorted.extreme_head (h : Sorted lt l) : Extreme (fun a b => lt a b = true) (· ∈ l) l.head? := by
  cases l with
  | nil => simp [Extreme]
  | cons a l =>
    refine ⟨List.mem_cons_self, fun b hb => ?_⟩
    rcases List.mem_cons.1 hb with rfl | hb
    · exact .inl rfl
    · exact .inr ((List.pairwise_cons.1 h).1 b hb)

theorem Sorted.extreme_getLast (h : Sorted lt l) : Extreme (fun a b => lt b a = true) (· ∈ l) l.getLast? := by
  rcases List.eq_nil_or_concat l with rfl | ⟨l, a, rfl⟩
  · simp [Extreme]
  · rw [List.concat_eq_append, List.getLast?_concat]
    refine ⟨by simp, fun b hb => ?_⟩
    rw [List.concat_eq_append] at h
    rcases List.mem_append.1 hb with hb | hb
    · exact .inr ((List.pairwise_append.1 h).2.2 b hb a (by simp))
    · exact .inl (List.mem_singleton.1 hb)

end RedBlack
