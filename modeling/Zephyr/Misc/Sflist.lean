import Zephyr.Lib.LinkedList
/-!
# `sys_sflist_*` (include/misc/sflist.h, list_gen.h)

A singly linked list whose nodes keep flags in the low bits of the pointer. Writing the pointer keeps the
flags, and `sys_sfnode_init` sets them.
-/
namespace Zephyr

open LinkedList Function List

structure SfNode (α : Type*) where
  next : Option α
  flags : Nat
deriving DecidableEq

structure Sflist (α : Type*) where
  head : Option α
  tail : Option α
deriving DecidableEq

variable {α : Type*} [DecidableEq α]

section code

variable (mem : α → SfNode α) (list : Sflist α)

def zSfnodeNextSet (parent : α) (child : Option α) : α → SfNode α := update mem parent ⟨child, (mem parent).flags⟩

def sysSfnodeInit (node : α) (flags : Nat) : α → SfNode α := update mem node ⟨none, flags⟩

def sysSflistPrepend (node : α) : (α → SfNode α) × Sflist α :=
  let mem := zSfnodeNextSet mem node list.head
  (mem, ⟨some node, if list.tail = none then some node else list.tail⟩)

def sysSflistAppend (node : α) : (α → SfNode α) × Sflist α :=
  let mem := zSfnodeNextSet mem node none
  match list.tail with
  | none => (mem, ⟨some node, some node⟩)
  | some t => (zSfnodeNextSet mem t (some node), { list with tail := some node })

def sysSflistInsert (prev : Option α) (node : α) : (α → SfNode α) × Sflist α :=
  match prev with
  | none => sysSflistPrepend mem list node
  | some p =>
    if (mem p).next = none then sysSflistAppend mem list node
    else
      let mem := zSfnodeNextSet mem node (mem p).next
      (zSfnodeNextSet mem p (some node), list)

/-- The node is the head. -/
def sysSflistGetNotEmpty (node : α) : Sflist α :=
  let head := (mem node).next
  ⟨head, if list.tail = some node then head else list.tail⟩

end code

section spec

variable {mem : α → SfNode α} {list : Sflist α} {l r : List α} {n x : α}

/-- `l` are the nodes of `list`. -/
def IsSflist (mem : α → SfNode α) (list : Sflist α) (l : List α) : Prop :=
    IsList (fun x => (mem x).next) list.head list.tail l

@[simp] theorem zSfnodeNextSet_next_self (c : Option α) : (zSfnodeNextSet mem n c n).next = c := by
  simp [zSfnodeNextSet]

theorem zSfnodeNextSet_ne (c : Option α) (h : x ≠ n) : zSfnodeNextSet mem n c x = mem x := update_of_ne h _ _

@[simp] theorem zSfnodeNextSet_flags (c : Option α) : (zSfnodeNextSet mem n c x).flags = (mem x).flags := by
  by_cases h : x = n
  · subst h
    simp [zSfnodeNextSet]
  · rw [zSfnodeNextSet_ne c h]

omit [DecidableEq α] in
theorem IsSflist.congr {mem' : α → SfNode α} (h : IsSflist mem list l) (he : ∀ x ∈ l, mem' x = mem x) :
    IsSflist mem' list l :=
  IsList.congr h fun x hx => by rw [he x hx]

theorem isSflist_prepend (h : IsSflist mem list l) (hn : n ∉ l) :
    IsSflist (sysSflistPrepend mem list n).1 (sysSflistPrepend mem list n).2 (n :: l) := by
  simp only [sysSflistPrepend]
  refine IsList.cons h (by simp) fun x hx => ?_
  rw [zSfnodeNextSet_ne _ (ne_of_mem_of_not_mem hx hn)]

/-- The two writes that put `n` behind `x`. -/
theorem isList_setAfter (h : IsSflist mem list (l ++ x :: r)) (hn : n ∉ l ++ x :: r) {c : Option α}
    (hc : c = (mem x).next) :
    IsList (fun y => (zSfnodeNextSet (zSfnodeNextSet mem n c) x (some n) y).next) list.head
      (if list.tail = some x then some n else list.tail) (l ++ x :: n :: r) := by
  have hxn : x ≠ n := fun e => hn (by simp [e])
  refine IsList.insertAfter h (by simp) ?_ fun y hy hyx => ?_
  · rw [zSfnodeNextSet_ne _ hxn.symm, zSfnodeNextSet_next_self, hc]
  · rw [zSfnodeNextSet_ne _ hyx, zSfnodeNextSet_ne _ (ne_of_mem_of_not_mem hy hn)]

theorem isSflist_insertMiddle (h : IsSflist mem list (l ++ x :: r)) (hn : n ∉ l ++ x :: r) (hr : (mem x).next ≠ none) :
    IsSflist (zSfnodeNextSet (zSfnodeNextSet mem n (mem x).next) x (some n)) list (l ++ x :: n :: r) := by
  have hins := isList_setAfter h hn rfl
  rwa [if_neg] at hins
  -- the tail has no successor
  intro e
  have hlast := h.tail
  have hnext := IsList.next_eq h
  cases r with
  | nil => exact hr hnext
  | cons y r =>
    rw [e, List.getLast?_append_cons, List.getLast?_cons_cons] at hlast
    have hx := (nodup_cons.1 (nodup_append.1 (IsList.nodup h)).2.1).1
    exact hx (mem_of_getLast? hlast.symm)

theorem isSflist_append (h : IsSflist mem list l) (hn : n ∉ l) :
    IsSflist (sysSflistAppend mem list n).1 (sysSflistAppend mem list n).2 (l ++ [n]) := by
  rcases eq_nil_or_concat l with rfl | ⟨l, x, rfl⟩
  · have ht : list.tail = none := h.tail
    simp only [sysSflistAppend, ht]
    exact ⟨⟨rfl, by simp [Seg]⟩, rfl⟩
  · rw [concat_eq_append] at h hn ⊢
    have ht : list.tail = some x := by rw [h.tail]; simp
    simp only [sysSflistAppend, ht]
    have hins := isList_setAfter h hn (IsList.next_eq h).symm
    rw [if_pos ht] at hins
    simpa [IsSflist] using hins

theorem isSflist_getNotEmpty (h : IsSflist mem list (n :: l)) :
    list.head = some n ∧ IsSflist mem (sysSflistGetNotEmpty mem list n) l :=
  ⟨h.seg.1, IsList.pop h⟩

end spec

end Zephyr
