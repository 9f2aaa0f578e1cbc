import Mathlib.Algebra.BigOperators.Group.Finset.Basic
/-!
# How many of finitely many parties are in some state
-/
namespace Tally

open Function

variable {ι : Type*} [Fintype ι] [DecidableEq ι] {p q : ι → Bool}

def tally (p : ι → Bool) : Nat := ∑ i, (p i).toNat

/-- Only party `i` has moved. -/
theorem tally_move (p p' : ι → Bool) (i : ι) (h : ∀ j, j ≠ i → p' j = p j) :
    tally p' + (p i).toNat = tally p + (p' i).toNat := by
  unfold tally
  rw [← Finset.add_sum_erase _ _ (Finset.mem_univ i),
    ← Finset.add_sum_erase Finset.univ (fun j => (p j).toNat) (Finset.mem_univ i)]
  have hrest : ∑ j ∈ Finset.univ.erase i, (p' j).toNat = ∑ j ∈ Finset.univ.erase i, (p j).toNat :=
    Finset.sum_congr rfl fun j hj => by rw [h j (Finset.ne_of_mem_erase hj)]
  omega

theorem tally_update {σ : Type*} (f : σ → Bool) (st : ι → σ) (i : ι) (x : σ) :
    tally (fun j => f (update st i x j)) + (f (st i)).toNat = tally (fun j => f (st j)) + (f x).toNat := by
  have hmove := tally_move (fun j => f (st j)) (fun j => f (update st i x j)) i fun j hj => by rw [update_of_ne hj]
  rwa [update_self] at hmove

omit [DecidableEq ι] in
theorem tally_eq_zero_iff : tally p = 0 ↔ ∀ i, p i = false := by simp [tally]

omit [DecidableEq ι] in
theorem tally_congr (h : ∀ i, p i = q i) : tally p = tally q := by rw [funext h]

omit [DecidableEq ι] in
/-- Parties of two kinds. -/
theorem tally_or (h : ∀ i, ¬ (p i = true ∧ q i = true)) : tally (fun i => p i || q i) = tally p + tally q := by
  unfold tally
  rw [← Finset.sum_add_distrib]
  refine Finset.sum_congr rfl fun i _ => ?_
  cases hp : p i <;> cases hq : q i <;> simp_all

end Tally
