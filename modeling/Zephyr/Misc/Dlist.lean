import Zephyr.Lib.Ring
/-!
# `sys_dlist_*` (include/misc/dlist.h)

A `sys_dlist_t` and a `sys_dnode_t` are the same struct: `head`/`next` share a word, and so do
`tail`/`prev`. A list is therefore a ring of cells through its own head cell, and every function
below is written as the source writes it: one field at a time, later reads seeing earlier writes.
-/
namespace Zephyr

open Ring Function

variable {α : Type*} [DecidableEq α]

section

variable (m : Links α)

def sysDlistInit (list : α) : Links α := (m.setNext list list).setPrev list list

def sysDlistIsTail (list node : α) : Bool := m.prev list = node

def sysDlistIsEmpty (list : α) : Bool := m.next list = list

def sysDlistPeekHead (list : α) : Option α :=
  if sysDlistIsEmpty m list then none else some (m.next list)

def sysDlistPeekTail (list : α) : Option α :=
  if sysDlistIsEmpty m list then none else some (m.prev list)

def sysDlistPeekNextNoCheck (list node : α) : Option α :=
  if node = m.prev list then none else some (m.next node)

def sysDlistPeekNext (list : α) : Option α → Option α
  | some node => sysDlistPeekNextNoCheck m list node
  | none => none

def sysDlistAppend (list node : α) : Links α :=
  let m := m.setNext node list
  let m := m.setPrev node (m.prev list)
  let m := m.setNext (m.prev list) node
  m.setPrev list node

def sysDlistPrepend (list node : α) : Links α :=
  let m := m.setNext node (m.next list)
  let m := m.setPrev node list
  let m := m.setPrev (m.next list) node
  m.setNext list node

def sysDlistInsertBefore (list : α) (insertPoint : Option α) (node : α) : Links α :=
  match insertPoint with
  | none => sysDlistAppend m list node
  | some p =>
    let m := m.setPrev node (m.prev p)
    let m := m.setNext node p
    let m := m.setNext (m.prev p) node
    m.setPrev p node

def sysDlistRemove (node : α) : Links α :=
  let m := m.setNext (m.prev node) (m.next node)
  m.setPrev (m.next node) (m.prev node)

def sysDlistGet (list : α) : Links α × Option α :=
  if sysDlistIsEmpty m list then (m, none)
  else (sysDlistRemove m (m.next list), some (m.next list))

end

/-! ## The writes are ring edits -/

section
variable {m : Links α} {h n b : α} {l r : List α}

theorem sysDlistAppend_eq (hn : n ≠ h) : sysDlistAppend m h n = m.linkBefore h n := by
  simp [sysDlistAppend, Links.linkBefore, Links.setPrev_prev_ne, Ne.symm hn]

theorem sysDlistInsertBefore_eq (hn : n ≠ b) : sysDlistInsertBefore m h (some b) n = m.linkBefore b n := by
  have : (m.setPrev n (m.prev b)).prev b = m.prev b := Links.setPrev_prev_ne _ _ (Ne.symm hn)
  simp only [sysDlistInsertBefore, Links.linkBefore, Links.setNext_prev, this]
  rfl

theorem sysDlistRemove_eq : sysDlistRemove m n = m.unlink n := by
  simp only [sysDlistRemove, Links.unlink, Links.setNext_prev]
  by_cases hp : n = m.prev n
  · rw [← hp]; simp
  · rw [Links.setNext_next_ne _ _ hp]

/-- On a ring, putting a node in front is linking it before the first cell. -/
theorem sysDlistPrepend_eq (hr : IsRing m h l) (hn : n ≠ h) : sysDlistPrepend m h n = m.linkBefore (m.next h) n := by
  have hp : m.prev (m.next h) = h := by
    cases l with
    | nil => rw [hr.next_head]; exact hr.prev_head_nil
    | cons x l => rw [hr.next_head]; exact hr.chain.1.2
  simp only [sysDlistPrepend, Links.linkBefore, hp, Links.setPrev_next, Links.setNext_next_ne _ _ (Ne.symm hn)]
  rfl

/-! ## What each function does to a list -/

theorem isRing_init (m : Links α) (h : α) : IsRing (sysDlistInit m h) h [] :=
  ⟨by simp, by simp [Chain, sysDlistInit]⟩

theorem isRing_append (hr : IsRing m h l) (hn : n ∉ h :: l) : IsRing (sysDlistAppend m h n) h (l ++ [n]) := by
  rw [sysDlistAppend_eq (fun e => hn (by simp [e]))]
  exact hr.linkBefore_head hn

theorem isRing_insertBefore (hr : IsRing m h (l ++ b :: r)) (hn : n ∉ h :: (l ++ b :: r)) :
    IsRing (sysDlistInsertBefore m h (some b) n) h (l ++ n :: b :: r) := by
  rw [sysDlistInsertBefore_eq (fun e => hn (by simp [e]))]
  exact hr.linkBefore_mem hn

theorem isRing_remove (hr : IsRing m h (l ++ n :: r)) : IsRing (sysDlistRemove m n) h (l ++ r) := by
  rw [sysDlistRemove_eq]; exact hr.unlink

theorem sysDlistIsEmpty_iff (hr : IsRing m h l) : sysDlistIsEmpty m h = true ↔ l = [] := by
  simp [sysDlistIsEmpty, hr.eq_nil_iff]

theorem sysDlistPeekHead_eq (hr : IsRing m h l) : sysDlistPeekHead m h = l.head? := by
  unfold sysDlistPeekHead
  cases l with
  | nil => simp [(sysDlistIsEmpty_iff hr).2 rfl]
  | cons x l =>
    have : ¬ sysDlistIsEmpty m h = true := by simp [sysDlistIsEmpty_iff hr]
    simp [this, hr.next_head]

theorem sysDlistPeekTail_eq (hr : IsRing m h l) : sysDlistPeekTail m h = l.getLast? := by
  unfold sysDlistPeekTail
  rw [hr.prev_head]
  cases l with
  | nil => simp [(sysDlistIsEmpty_iff hr).2 rfl]
  | cons x l =>
    have hne : ¬ sysDlistIsEmpty m h = true := by simp [sysDlistIsEmpty_iff hr]
    obtain ⟨y, hy⟩ := Option.ne_none_iff_exists'.1 (show (x :: l).getLast? ≠ none by simp)
    rw [if_neg hne, hy, Option.getD_some]

theorem sysDlistIsTail_iff (hr : IsRing m h (l ++ n :: r)) : sysDlistIsTail m h n = true ↔ r = [] := by
  simp only [sysDlistIsTail, decide_eq_true_eq]
  rcases List.eq_nil_or_concat r with rfl | ⟨r', x, rfl⟩
  · simpa using hr.prev_head_concat
  · have hr' : IsRing m h ((l ++ n :: r') ++ [x]) := by simpa using hr
    have hnd := hr.nodup_tail
    rw [hr'.prev_head_concat]
    simp only [List.concat_eq_append, List.append_eq_nil_iff, List.cons_ne_self, and_false, iff_false]
    rintro rfl
    simp [List.nodup_append, List.nodup_cons] at hnd

theorem sysDlistPeekNext_eq (hr : IsRing m h (l ++ n :: r)) : sysDlistPeekNext m h (some n) = r.head? := by
  have ht := sysDlistIsTail_iff hr
  simp only [sysDlistIsTail, decide_eq_true_eq] at ht
  simp only [sysDlistPeekNext, sysDlistPeekNextNoCheck, eq_comm (a := n), ht, hr.next_of_mem]
  cases r <;> simp

theorem sysDlistGet_nil (hr : IsRing m h []) : sysDlistGet m h = (m, none) := by
  simp [sysDlistGet, (sysDlistIsEmpty_iff hr).2 rfl]

theorem sysDlistGet_cons (hr : IsRing m h (n :: l)) :
    sysDlistGet m h = (sysDlistRemove m n, some n) ∧ IsRing (sysDlistGet m h).1 h l := by
  have he : sysDlistIsEmpty m h = false := by
    have := sysDlistIsEmpty_iff hr; simp at this; exact this
  have hg : sysDlistGet m h = (sysDlistRemove m n, some n) := by simp [sysDlistGet, he, hr.next_head]
  refine ⟨hg, ?_⟩
  rw [hg]; exact isRing_remove (l := []) hr

end

/-! ## Several lists in one memory -/

section
variable {ι : Type*} [DecidableEq ι] {m : Links α} {hd : ι → α} {L : ι → List α} {i : ι} {n b : α} {l r : List α}

theorem isRings_append (hr : IsRings m hd L) (hn : ∀ j, n ∉ hd j :: L j) :
    IsRings (sysDlistAppend m (hd i) n) hd (update L i (L i ++ [n])) := by
  rw [sysDlistAppend_eq (fun e => hn i (by simp [e]))]
  exact hr.linkBefore_head hn

theorem isRings_prepend (hr : IsRings m hd L) (hn : ∀ j, n ∉ hd j :: L j) :
    IsRings (sysDlistPrepend m (hd i) n) hd (update L i (n :: L i)) := by
  rw [sysDlistPrepend_eq (hr.ring i) (fun e => hn i (by simp [e])), (hr.ring i).next_head]
  cases hL : L i with
  | nil => simpa [hL] using hr.linkBefore_head (i := i) hn
  | cons x l => exact hr.linkBefore_mem (l := []) hL hn

theorem isRings_insertBefore (hr : IsRings m hd L) (hL : L i = l ++ b :: r) (hn : ∀ j, n ∉ hd j :: L j) :
    IsRings (sysDlistInsertBefore m (hd i) (some b) n) hd (update L i (l ++ n :: b :: r)) := by
  rw [sysDlistInsertBefore_eq (fun e => hn i (by simp [e, hL]))]
  exact hr.linkBefore_mem hL hn

theorem isRings_remove (hr : IsRings m hd L) (hL : L i = l ++ n :: r) :
    IsRings (sysDlistRemove m n) hd (update L i (l ++ r)) := by
  rw [sysDlistRemove_eq]; exact hr.unlink hL

end

end Zephyr
