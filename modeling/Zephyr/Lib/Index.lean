import Mathlib.Algebra.Ring.Nat
/-!
# Literals of small index types

The instances behind the literals of `Fin 2`, `Fin 3` and `Fin 4` have names, so that a literal is the same term
wherever it is written.
-/
namespace Zephyr

instance neZero_two : NeZero 2 := ⟨by decide⟩

instance neZero_three : NeZero 3 := ⟨by decide⟩

instance neZero_four : NeZero 4 := ⟨by decide⟩

end Zephyr
