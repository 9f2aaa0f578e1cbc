import Mathlib.Data.List.Nodup
/-!
# Singly linked lists

`next` gives the pointer in each node. `Seg next p l q` says that a walk that starts with the pointer `p`
meets the nodes of `l` and then has `q`; `IsList` is a walk that ends at a null pointer, with
pointers to both ends. An edit is described by the pointers afterwards, so that the rules serve
any order of writes.
-/
namespace LinkedList

open List

variable {α : Type*} {next next' : α → Option α} {p q head tail : Option α} {l r : List α} {n x : α}

def Seg (next : α → Option α) : Option α → List α → Option α → Prop
  | p, [], q => p = q
  | p, x :: l, q => p = some x ∧ Seg next (next x) l q

theorem seg_append : ∀ {l : List α} {p : Option α}, Seg next p (l ++ r) q ↔ ∃ m, Seg next p l m ∧ Seg next m r q
  | [], p => by simp [Seg]
  | x :: l, p => by simp only [cons_append, Seg, seg_append (l := l), and_assoc, exists_and_left]

theorem Seg.congr : ∀ {l : List α} {p : Option α}, Seg next p l q → (∀ x ∈ l, next' x = next x) → Seg next' p l q
  | [], _, h, _ => h
  | x :: l, _, h, he => by
    refine ⟨h.1, ?_⟩
    rw [he x (by simp)]
    exact h.2.congr fun y hy => he y (by simp [hy])

theorem Seg.unique : ∀ {l r : List α} {p : Option α}, Seg next p l none → Seg next p r none → l = r
  | [], [], _, _, _ => rfl
  | [], _ :: _, _, h, h' => by cases h.symm.trans h'.1
  | _ :: _, [], _, h, h' => by cases h.1.symm.trans h'
  | x :: l, y :: r, _, h, h' => by
    obtain rfl : x = y := Option.some_inj.1 (h.1.symm.trans h'.1)
    rw [h.2.unique h'.2]

/-- A node that came twice would be met again and again. -/
theorem Seg.nodup : ∀ {l : List α} {p : Option α}, Seg next p l none → l.Nodup
  | [], _, _ => nodup_nil
  | x :: l, _, h => by
    refine nodup_cons.2 ⟨fun hx => ?_, h.2.nodup⟩
    obtain ⟨a, b, rfl⟩ := append_of_mem hx
    obtain ⟨m, -, -, hb⟩ := seg_append.1 h.2
    have hlen := congrArg List.length (h.2.unique hb)
    simp only [length_append, length_cons] at hlen
    omega

structure IsList (next : α → Option α) (head tail : Option α) (l : List α) : Prop where
  seg : Seg next head l none
  tail : tail = l.getLast?

namespace IsList

theorem nil : IsList next none none [] := ⟨rfl, rfl⟩

theorem nodup (h : IsList next head tail l) : l.Nodup := h.seg.nodup

theorem head_eq (h : IsList next head tail l) : head = l.head? := by
  cases l with
  | nil => exact h.seg
  | cons x l => exact h.seg.1

theorem congr (h : IsList next head tail l) (he : ∀ x ∈ l, next' x = next x) : IsList next' head tail l :=
  ⟨h.seg.congr he, h.tail⟩

theorem tail_eq_none_iff (h : IsList next head tail l) : tail = none ↔ l = [] := by
  rw [h.tail, List.getLast?_eq_none_iff]

theorem next_eq (h : IsList next head tail (l ++ x :: r)) : next x = r.head? := by
  obtain ⟨m, -, -, hr⟩ := seg_append.1 h.seg
  have hlist : IsList next (next x) r.getLast? r := ⟨hr, rfl⟩
  exact hlist.head_eq

theorem pop [DecidableEq α] (h : IsList next head tail (x :: l)) :
    IsList next (next x) (if tail = some x then next x else tail) l := by
  refine ⟨h.seg.2, ?_⟩
  rw [h.tail]
  cases l with
  | nil =>
    rw [if_pos (show [x].getLast? = some x from rfl)]
    exact h.seg.2
  | cons y l =>
    have hx : x ∉ y :: l := (nodup_cons.1 h.nodup).1
    rw [if_neg, List.getLast?_cons_cons]
    intro e
    rw [List.getLast?_cons_cons] at e
    exact hx (mem_of_getLast? e)

/-- A node is put in front. -/
theorem cons (h : IsList next head tail l) (hn : next' n = head) (he : ∀ x ∈ l, next' x = next x) :
    IsList next' (some n) (if tail = none then some n else tail) (n :: l) := by
  refine ⟨⟨rfl, ?_⟩, ?_⟩
  · rw [hn]
    exact h.seg.congr he
  · cases l with
    | nil => rw [if_pos (h.tail_eq_none_iff.2 rfl)]; rfl
    | cons y l =>
      rw [if_neg fun e => by simpa using h.tail_eq_none_iff.1 e, List.getLast?_cons_cons, h.tail]

/-- A node is put behind `x`. -/
theorem insertAfter [DecidableEq α] (h : IsList next head tail (l ++ x :: r)) (hx : next' x = some n)
    (hn : next' n = next x) (he : ∀ y ∈ l ++ x :: r, y ≠ x → next' y = next y) :
    IsList next' head (if tail = some x then some n else tail) (l ++ x :: n :: r) := by
  have hnd := h.nodup
  rw [nodup_append, nodup_cons] at hnd
  obtain ⟨-, ⟨hxr, -⟩, hlr⟩ := hnd
  obtain ⟨m, hl, hm, hr⟩ := seg_append.1 h.seg
  refine ⟨seg_append.2 ⟨m, hl.congr fun y hy => he y (by simp [hy]) (hlr y hy x (by simp)), hm, hx, ?_⟩, ?_⟩
  · rw [hn]
    exact hr.congr fun y hy => he y (by simp [hy]) fun e => hxr (e ▸ hy)
  · rw [h.tail, List.getLast?_append, List.getLast?_append]
    cases r with
    | nil => simp
    | cons y r =>
      rw [if_neg]
      · simp [List.getLast?_cons_cons]
      · intro e
        simp only [List.getLast?_cons_cons] at e
        have hy : (y :: r).getLast? = some x := by
          obtain ⟨z, hz⟩ := Option.ne_none_iff_exists'.1 (show (y :: r).getLast? ≠ none by simp)
          rw [hz] at e ⊢
          simpa using e
        exact hxr (mem_of_getLast? hy)

end IsList

end LinkedList
