import Mathlib.Data.List.Basic
/-!
# Flash memory

Erasing sets all bits, and a write can only clear them: it is the conjunction with what is there.
-/
namespace Flash

open List

variable {a b c d m : List UInt8} {o n : Nat}

def erased (n : Nat) : List UInt8 := List.replicate n 0xff

/-- `d` is written at `o`. -/
def program (m : List UInt8) (o : Nat) (d : List UInt8) : List UInt8 :=
  m.take o ++ (List.zipWith (· &&& ·) (m.drop o) d ++ m.drop (o + d.length))

@[simp] theorem length_erased : (erased n).length = n := length_replicate

theorem erased_append (n k : Nat) : erased n ++ erased k = erased (n + k) := replicate_append_replicate

theorem length_program (h : o + d.length ≤ m.length) : (program m o d).length = m.length := by
  simp only [program, length_append, length_take, length_zipWith, length_drop]
  omega

/-- A write inside of one part leaves the others. -/
theorem program_append (hlen : d.length = b.length) :
    program (a ++ (b ++ c)) a.length d = a ++ (List.zipWith (· &&& ·) b d ++ c) := by
  have hsplit : (b ++ c).drop b.length = c := drop_left
  have hzip : List.zipWith (· &&& ·) (b ++ c) d = List.zipWith (· &&& ·) b d := by
    have hd : d = d ++ [] := (append_nil d).symm
    rw [hd, zipWith_append hlen.symm, ← hd, zipWith_nil_right, append_nil]
  rw [program, take_left, drop_left, hzip, ← drop_drop, drop_left, hlen, hsplit]

theorem zipWith_erased (d : List UInt8) : List.zipWith (· &&& ·) (erased d.length) d = d := by
  induction d with
  | nil => rfl
  | cons x d ih =>
    change ((0xff : UInt8) &&& x) :: List.zipWith _ (erased d.length) d = _
    rw [ih]
    congr 1
    exact UInt8.neg_one_and

/-- A write inside of one part is a write to that part. -/
theorem program_part (h : o + d.length ≤ b.length) :
    program (a ++ (b ++ c)) (a.length + o) d = a ++ (program b o d ++ c) := by
  have hparts : b = b.take o ++ ((b.drop o).take d.length ++ b.drop (o + d.length)) := by
    rw [← drop_drop, take_append_drop, take_append_drop]
  have hfront : (b.take o).length = o := length_take_of_le (by omega)
  have hlen : d.length = ((b.drop o).take d.length).length := by
    rw [length_take_of_le]
    rw [length_drop]
    omega
  have hwhole := program_append (a := a ++ b.take o) (c := b.drop (o + d.length) ++ c) hlen
  have hpart := program_append (a := b.take o) (c := b.drop (o + d.length)) hlen
  rw [length_append, hfront] at hwhole
  rw [hfront, ← hparts] at hpart
  rw [hpart]
  simp only [append_assoc] at hwhole ⊢
  rw [← hwhole]
  congr 1
  conv_lhs => rw [hparts]
  simp only [append_assoc]

/-- What is written where all is erased is there. -/
theorem program_erased (h : d.length ≤ n) : program (a ++ erased n) a.length d = a ++ (d ++ erased (n - d.length)) := by
  have hsplit : erased n = erased d.length ++ erased (n - d.length) := by
    rw [erased_append, Nat.add_sub_cancel' h]
  rw [hsplit, program_append length_erased.symm, zipWith_erased]

theorem zipWith_ones (h : n ≤ b.length) : List.zipWith (· &&& ·) b (erased n) = b.take n := by
  induction n generalizing b with
  | zero => simp [erased]
  | succ n ih =>
    cases b with
    | nil => simp at h
    | cons x b =>
      change (x &&& (0xff : UInt8)) :: List.zipWith _ b (erased n) = _
      rw [ih (Nat.le_of_succ_le_succ h), take_succ_cons]
      congr 1
      exact UInt8.and_neg_one

/-- To write ones does nothing. -/
theorem program_ones (d : List UInt8) (h : o + (d.length + n) ≤ m.length) :
    program m o (d ++ erased n) = program m o d := by
  have hsplit : m.drop o = (m.drop o).take d.length ++ (m.drop o).drop d.length := (take_append_drop _ _).symm
  have hfront : ((m.drop o).take d.length).length = d.length := by
    rw [length_take, length_drop]
    omega
  have hback : n ≤ ((m.drop o).drop d.length).length := by
    rw [length_drop, length_drop]
    omega
  have hzip : List.zipWith (· &&& ·) (m.drop o) (d ++ erased n) =
      List.zipWith (· &&& ·) ((m.drop o).take d.length) d ++ ((m.drop o).drop d.length).take n := by
    conv_lhs => rw [hsplit, zipWith_append hfront, zipWith_ones hback]
  have hzip' : List.zipWith (· &&& ·) (m.drop o) d = List.zipWith (· &&& ·) ((m.drop o).take d.length) d := by
    conv_lhs => rw [hsplit, ← append_nil d, zipWith_append (by simpa using hfront), zipWith_nil_right, append_nil]
    simp
  rw [program, program, hzip, hzip', length_append, length_erased, append_assoc, ← Nat.add_assoc,
    ← drop_drop (i := n), ← drop_drop (i := d.length), take_append_drop]

end Flash
