import Mathlib.Logic.Function.Basic
/-!
# Lists and strings in memory

A memory is a function from places to values. `Holds m a l` says that the values of `l` lie at the places from `a` on.
-/
namespace Memory

/-- A string of C, without the 0 behind it. -/
structure CString where
  chars : List UInt8
  noNul : 0 ∉ chars
deriving DecidableEq

variable {α : Type*} {m m' : Nat → α} {a i : Nat} {x : α} {l k : List α}

def Holds (m : Nat → α) : Nat → List α → Prop
  | _, [] => True
  | a, x :: l => m a = x ∧ Holds m (a + 1) l

@[simp] theorem holds_nil : Holds m a [] := trivial

@[simp] theorem holds_cons : Holds m a (x :: l) ↔ m a = x ∧ Holds m (a + 1) l := Iff.rfl

theorem holds_append : Holds m a (l ++ k) ↔ Holds m a l ∧ Holds m (a + l.length) k := by
  induction l generalizing a with
  | nil => simp
  | cons x l ih =>
    simp only [List.cons_append, holds_cons, ih, and_assoc, List.length_cons, Nat.add_assoc, Nat.add_comm 1]

/-- What the list does not lie in may change. -/
theorem Holds.frame (h : Holds m a l) (hsame : ∀ i, a ≤ i → i < a + l.length → m' i = m i) : Holds m' a l := by
  induction l generalizing a with
  | nil => trivial
  | cons x l ih =>
    rw [List.length_cons] at hsame
    exact ⟨(hsame a (Nat.le_refl a) (by omega)).trans h.1, ih h.2 fun i hi hlt => hsame i (by omega) (by omega)⟩

theorem Holds.update (h : Holds m a l) (hi : i < a ∨ a + l.length ≤ i) : Holds (Function.update m i x) a l :=
  h.frame fun j hj hlt => Function.update_of_ne (by omega) _ _

end Memory
