import Mathlib.Data.List.GetD
import Mathlib.Tactic.Common
/-!
# Circular buffers

A buffer of `size` places has `used` elements from the place `first` on, and goes on at place 0 behind the
last one. Code that copies runs of elements works on places in a row (`slice`, `write`); `contents` is
the queue that they make up.
-/
namespace RingBuffer

open List Nat

variable {β : Type*} {buf : ℕ → β} {size first used n pos : ℕ} {bs : List β}

def contents (buf : ℕ → β) (size first used : ℕ) : List β := (List.range used).map fun i => buf ((first + i) % size)

/-- The `n` places from `first` on. -/
def slice (buf : ℕ → β) (first n : ℕ) : List β := (List.range n).map fun i => buf (first + i)

/-- The elements `bs` go to the places from `pos` on. -/
def write (buf : ℕ → β) (pos : ℕ) (bs : List β) : ℕ → β := fun i => if pos ≤ i then bs.getD (i - pos) (buf i) else buf i

/-- The buffer seen as slots of `n` places each. -/
def slots (buf : ℕ → β) (n : ℕ) : ℕ → List β := fun i => slice buf (i * n) n

/-- The place `n` behind `i`, where no run goes past the end. -/
def step (size i n : ℕ) : ℕ := if i + n = size then 0 else i + n

@[simp] theorem length_contents : (contents buf size first used).length = used := by simp [contents]

@[simp] theorem length_slice : (slice buf first n).length = n := by simp [slice]

theorem step_eq_mod {i : ℕ} (h : i + n ≤ size) : step size i n = (i + n) % size := by
  unfold step
  split
  · rename_i he
    rw [he, mod_self]
  · exact (mod_eq_of_lt (by omega)).symm

theorem contents_drop : contents buf size ((first + n) % size) (used - n) = (contents buf size first used).drop n := by
  refine ext_getElem (by simp) fun i hi _ => ?_
  simp only [contents, getElem_map, getElem_range, getElem_drop]
  rw [Nat.mod_add_mod, Nat.add_assoc]

theorem slice_eq_take (h : n ≤ used) (hrun : first + n ≤ size) :
    slice buf first n = (contents buf size first used).take n := by
  refine ext_getElem (by simp [h]) fun i hi _ => ?_
  rw [length_slice] at hi
  simp only [slice, contents, getElem_map, getElem_range, getElem_take]
  rw [mod_eq_of_lt (by omega)]

/-- Less than a round apart are different places. -/
theorem place_ne {i j : ℕ} (hij : i < j) (hj : j < i + size) : (first + i) % size ≠ (first + j) % size := by
  intro he
  have hdvd : size ∣ (first + j) - (first + i) := dvd_of_mod_eq_zero (sub_mod_eq_zero_of_mod_eq he.symm)
  have hzero := eq_zero_of_dvd_of_lt hdvd (by omega)
  omega

theorem place_in_run {j : ℕ} (hpos : pos = (first + used) % size) (hj : pos + j < size) :
    (first + (used + j)) % size = pos + j := by
  have hmod := Nat.mod_add_mod (first + used) size j
  rw [← hpos, Nat.mod_eq_of_lt hj] at hmod
  rw [← Nat.add_assoc, hmod]

/-- What is written behind the last element is added to the queue. -/
theorem contents_write (hroom : used + bs.length ≤ size) (hpos : pos = (first + used) % size)
    (hrun : pos + bs.length ≤ size) :
    contents (write buf pos bs) size first (used + bs.length) = contents buf size first used ++ bs := by
  refine ext_getElem (by simp) fun i hi _ => ?_
  rw [length_contents] at hi
  rw [getElem_append]
  simp only [contents, getElem_map, getElem_range, length_map, length_range]
  split
  · rename_i hlt
    -- an older element is not in the run
    unfold write
    split
    · rename_i hle
      obtain ⟨j, hj⟩ := Nat.exists_eq_add_of_le hle
      rw [hj, Nat.add_sub_cancel_left]
      by_cases hjb : j < bs.length
      · rw [← place_in_run hpos (by omega)] at hj
        exact absurd hj (place_ne (by omega) (by omega))
      · rw [getD_eq_default _ _ (by omega)]
    · rfl
  · rename_i hge
    obtain ⟨j, rfl⟩ := Nat.exists_eq_add_of_le (Nat.le_of_not_lt hge)
    have hjb : j < bs.length := by omega
    rw [place_in_run hpos (by omega), write, if_pos (by omega)]
    simp only [Nat.add_sub_cancel_left]
    exact getD_eq_getElem _ _ hjb

/-! ## Slots -/

theorem step_slots {i : ℕ} : step (size * n) (i * n) n = step size i 1 * n := by
  unfold step
  rw [← succ_mul]
  obtain rfl | hn := Nat.eq_zero_or_pos n
  · simp
  · by_cases he : i + 1 = size
    · rw [if_pos (by rw [← he]), if_pos he, Nat.zero_mul]
    · rw [if_neg he, if_neg fun hm => he (eq_of_mul_eq_mul_right hn hm)]

theorem write_getElem (i : ℕ) (hi : i < bs.length) : write buf pos bs (pos + i) = bs[i] := by
  rw [write, if_pos (Nat.le_add_right _ _), Nat.add_sub_cancel_left]
  exact getD_eq_getElem _ _ hi

/-- To write one slot is to write one element of the buffer of slots. -/
theorem slots_write {i : ℕ} (hn : bs.length = n) : slots (write buf (i * n) bs) n = write (slots buf n) i [bs] := by
  funext j
  by_cases hj : j = i
  · subst hj
    rw [write, if_pos (Nat.le_refl _), Nat.sub_self]
    refine ext_getElem (by simp [slots, hn]) fun k hk _ => ?_
    simp only [slots, slice, getElem_map, getElem_range, getD_cons_zero]
    exact write_getElem k _
  · have hout : write (slots buf n) i [bs] j = slots buf n j := by
      unfold write
      split
      · exact getD_eq_default _ _ (by simp; omega)
      · rfl
    rw [hout]
    refine map_congr_left fun k hk => ?_
    -- place `k` of another slot is in front of the run or behind it
    have hk : k < n := mem_range.1 hk
    unfold write
    split
    · rename_i hle
      refine getD_eq_default _ _ ?_
      have hij : i < j := by
        by_contra hge
        have hmul := mul_le_mul_right n (show j + 1 ≤ i by omega)
        rw [succ_mul] at hmul
        omega
      have hmul := mul_le_mul_right n (show i + 1 ≤ j by omega)
      rw [succ_mul] at hmul
      omega
    · rfl

end RingBuffer
