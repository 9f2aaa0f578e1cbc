import Mathlib.Data.Nat.ModEq
import Zephyr.Fcb.Walk
/-!
# The circular buffer as a queue of sectors

The sectors in use are those from the oldest one on, in the order of the table and around its end; what they hold
is a list of lists of entries, `log`. The others are erased. The ids of their headers follow each other modulo
2^16, from `base` on. `Area` is about the flash alone; `FcbInv` says that the state in RAM belongs to it.
-/
namespace Zephyr

open Flash Chunks List Nat

/-- The `k`-th sector from `o` on, in a table of `n`. -/
def nthSector (n o k : Nat) : Nat := (o + k) % n

/-- The sector has the header with this id, and these entries. -/
def HoldsId (cfg : FcbCfg) (s : List UInt8) (id : Nat) (es : List Elem) : Prop :=
  ∃ n, s = fcbDiskHdr cfg id ++ (content Elem.bytes es ++ erased n)

def Blank (s : List UInt8) : Prop := s = erased s.length

structure Area (cfg : FcbCfg) (flash : List (List UInt8)) (o : Nat) (log : List (List Elem)) (base : Nat) : Prop where
  sizes : ∀ s ∈ flash, fcbDiskArea ≤ s.length
  oldest : o < flash.length
  ne : log ≠ []
  length : log.length ≤ flash.length
  used : ∀ k < log.length, HoldsId cfg (flash.getD (nthSector flash.length o k) []) ((base + k) % 2 ^ 16)
    (log.getD k [])
  free : ∀ k, log.length ≤ k → k < flash.length → Blank (flash.getD (nthSector flash.length o k) [])
  fits : ∀ es ∈ log, ∀ e ∈ es, e.Fits cfg

structure FcbInv (cfg : FcbCfg) (fcb : Fcb) (log : List (List Elem)) (base : Nat) : Prop where
  area : Area cfg fcb.flash fcb.oldest log base
  active : fcb.active = nthSector fcb.flash.length fcb.oldest (log.length - 1)
  elemOff : fcb.elemOff = fcbDiskArea + (content Elem.bytes (log.getD (log.length - 1) [])).length
  activeId : fcb.activeId = (base + (log.length - 1)) % 2 ^ 16

variable {j i : Nat}

section

variable {cfg : FcbCfg} {flash : List (List UInt8)} {fcb : Fcb} {log : List (List Elem)} {base k n o : Nat}

/-! ## Around the table -/

theorem nthSector_inj (hj : j < n) (hk : k < n) (h : nthSector n o j = nthSector n o k) : j = k := by
  have hmod : (o + j) ≡ (o + k) [MOD n] := h
  have := Nat.ModEq.add_left_cancel' _ hmod
  rwa [Nat.ModEq, mod_eq_of_lt hj, mod_eq_of_lt hk] at this

theorem fcbGetnextSector_nth (h : 0 < flash.length) (k : Nat) :
    fcbGetnextSector flash (nthSector flash.length o k) = nthSector flash.length o (k + 1) := by
  have hlt := mod_lt (o + k) h
  unfold fcbGetnextSector nthSector
  rw [← add_assoc, ← mod_add_mod (o + k)]
  by_cases hwrap : flash.length ≤ (o + k) % flash.length + 1
  · rw [if_pos hwrap, show (o + k) % flash.length + 1 = flash.length by omega, mod_self]
  · rw [if_neg hwrap, mod_eq_of_lt (show (o + k) % flash.length + 1 < flash.length by omega)]

theorem nthSector_lt (h : 0 < n) : nthSector n o k < n := mod_lt _ h

theorem nthSector_zero (h : o < n) : nthSector n o 0 = o := mod_eq_of_lt h

/-- Every sector is one of those from `o` on. -/
theorem nthSector_surj (ho : o < n) (hj : j < n) : ∃ k < n, nthSector n o k = j := by
  refine ⟨(j + (n - o)) % n, mod_lt _ (by omega), ?_⟩
  rw [nthSector, add_mod_mod, show o + (j + (n - o)) = j + n by omega, add_mod_right, mod_eq_of_lt hj]

theorem Area.pos (h : Area cfg flash o log base) : 0 < flash.length := lt_of_le_of_lt (zero_le _) h.oldest

theorem Area.length_pos (h : Area cfg flash o log base) : 0 < log.length := length_pos_iff.2 h.ne

/-- The oldest sector comes after the last one that is free. -/
theorem nthSector_succ_eq (ho : o < n) (hk : k < n) : nthSector n o (k + 1) = o ↔ k + 1 = n := by
  constructor
  · intro heq
    by_contra hne
    have := nthSector_inj (show k + 1 < n by omega) (lt_of_le_of_lt (zero_le _) ho) (heq.trans (nthSector_zero ho).symm)
    omega
  · intro heq
    rw [nthSector, heq, add_mod_right, mod_eq_of_lt ho]

/-- **`fcb_new_sector` (fcb_append.c:14)** finds none iff it comes around to the oldest. -/
theorem meetsOldest_iff (ho : fcb.oldest < fcb.flash.length) (cnt : Nat) (hk : k < fcb.flash.length) :
    meetsOldest fcb cnt (nthSector fcb.flash.length fcb.oldest k) = true ↔ fcb.flash.length ≤ k + cnt + 1 := by
  have hpos : 0 < fcb.flash.length := lt_of_le_of_lt (zero_le _) ho
  induction cnt generalizing k with
  | zero =>
    rw [meetsOldest, decide_eq_true_iff, fcbGetnextSector_nth hpos, nthSector_succ_eq ho hk]
    omega
  | succ cnt ih =>
    rw [meetsOldest, Bool.or_eq_true, decide_eq_true_iff, fcbGetnextSector_nth hpos, nthSector_succ_eq ho hk]
    by_cases hend : k + 1 = fcb.flash.length
    · simp only [hend, true_or, true_iff]
      omega
    · have hrest := ih (show k + 1 < fcb.flash.length by omega)
      simp only [hend, false_or, hrest]
      omega

theorem FcbInv.next_active (h : FcbInv cfg fcb log base) :
    fcbGetnextSector fcb.flash fcb.active = nthSector fcb.flash.length fcb.oldest log.length := by
  rw [h.active, fcbGetnextSector_nth h.area.pos, Nat.sub_add_cancel h.area.length_pos]

theorem FcbInv.fcbNewSector_eq (h : FcbInv cfg fcb log base) (cnt : Nat) :
    fcbNewSector fcb cnt = if fcb.flash.length - log.length < cnt + 1 then
    none else some (nthSector fcb.flash.length fcb.oldest log.length) := by
  have hpos := h.area.length_pos
  have hle := h.area.length
  have hmeets : meetsOldest fcb cnt fcb.active = true ↔ fcb.flash.length - log.length < cnt + 1 := by
    rw [h.active, meetsOldest_iff h.area.oldest cnt (by omega)]
    omega
  unfold fcbNewSector
  rw [if_congr hmeets rfl rfl, h.next_active]

/-- **`fcb_free_sector_cnt` (fcb.c:170)** -/
theorem FcbInv.fcbFreeSectorCnt_eq (h : FcbInv cfg fcb log base) :
    fcbFreeSectorCnt fcb = fcb.flash.length - log.length := by
  have hpos := h.area.length_pos
  have hle := h.area.length
  have hloop : ∀ left k i, k < fcb.flash.length → fcb.flash.length ≤ k + left →
      freeSectorLoop fcb left (nthSector fcb.flash.length fcb.oldest k) i = i + (fcb.flash.length - k - 1) := by
    intro left
    induction left with
    | zero => intro k i hk hle; omega
    | succ left ih =>
      intro k i hk hle
      simp only [freeSectorLoop, fcbGetnextSector_nth h.area.pos, nthSector_succ_eq h.area.oldest hk]
      by_cases hend : k + 1 = fcb.flash.length
      · rw [if_pos hend]
        omega
      · rw [if_neg hend, ih (k + 1) (i + 1) (by omega) (by omega)]
        omega
  rw [fcbFreeSectorCnt, h.active, hloop _ _ _ (by omega) (by omega)]
  omega

/-! ## The sectors in use -/

/-- The log as sectors and what they hold, from the `k`-th sector on. -/
def viewFrom (n o : Nat) : Nat → List (List Elem) → List (Nat × List Elem)
  | _, [] => []
  | k, es :: log => (nthSector n o k, es) :: viewFrom n o (k + 1) log

theorem length_viewFrom (k : Nat) : (viewFrom n o k log).length = log.length := by
  induction log generalizing k with
  | nil => rfl
  | cons es log ih => exact congrArg (· + 1) (ih (k + 1))

theorem length_fcbDiskHdr (cfg : FcbCfg) (id : Nat) : (fcbDiskHdr cfg id).length = fcbDiskArea := rfl

theorem Area.fits_at (h : Area cfg flash o log base) (hk : k < log.length) : ∀ e ∈ log.getD k [], e.Fits cfg := by
  rw [getD_eq_getElem _ _ hk]
  exact h.fits _ (getElem_mem hk)

theorem Area.holds (h : Area cfg flash o log base) (hk : k < log.length) :
    SectorHolds cfg flash (nthSector flash.length o k) (log.getD k []) := by
  obtain ⟨n, hn⟩ := h.used k hk
  exact ⟨_, n, length_fcbDiskHdr cfg _, hn, h.fits_at hk⟩

theorem FcbInv.follow (h : FcbInv cfg fcb log base) {rest : List (List Elem)} (hk : k < log.length)
    (hrest : log.drop (k + 1) = rest) :
    Follow cfg fcb (nthSector fcb.flash.length fcb.oldest k) (viewFrom fcb.flash.length fcb.oldest (k + 1) rest) := by
  induction rest generalizing k with
  | nil =>
    have hlast : k = log.length - 1 := by
      have := drop_eq_nil_iff.1 hrest
      omega
    rw [hlast, ← h.active]
    rfl
  | cons es rest ih =>
    have hlt : k + 1 < log.length := by
      by_contra hge
      rw [drop_eq_nil_of_le (Nat.le_of_not_lt hge)] at hrest
      cases hrest
    rw [drop_eq_getElem_cons hlt] at hrest
    obtain ⟨hes, hrest⟩ := List.cons.inj hrest
    have hle := h.area.length
    refine ⟨fun hactive => ?_, (fcbGetnextSector_nth h.area.pos k).symm, ?_, ih hlt hrest⟩
    · rw [h.active] at hactive
      have := nthSector_inj (by omega) (by omega) hactive
      omega
    · have := h.area.holds hlt
      rwa [getD_eq_getElem _ _ hlt, hes] at this

/-- **What a walk sees.** -/
theorem FcbInv.live (h : FcbInv cfg fcb log base) : Live cfg fcb (viewFrom fcb.flash.length fcb.oldest 0 log) := by
  refine ⟨?_, by rw [length_viewFrom]; exact h.area.length⟩
  obtain ⟨es, rest, rfl⟩ := exists_cons_of_ne_nil h.area.ne
  have hholds := h.area.holds (show 0 < (es :: rest).length from succ_pos _)
  have hfollow := h.follow (show 0 < (es :: rest).length from succ_pos _) rfl
  have hzero : nthSector fcb.flash.length fcb.oldest 0 = fcb.oldest := nthSector_zero h.area.oldest
  rw [hzero] at hholds hfollow
  refine ⟨es, viewFrom fcb.flash.length fcb.oldest 1 rest, ?_, hholds, hfollow⟩
  rw [viewFrom, hzero]

/-! ## How it changes -/

theorem getD_set (s : List UInt8) (j : Nat) (hi : i < flash.length) :
    (flash.set i s).getD j [] = if i = j then s else flash.getD j [] := by
  simp only [getD_eq_getElem?_getD, List.getElem?_set]
  split_ifs <;> simp_all

/-- **One sector of those in use changes**, or a further one is taken into use. -/
theorem Area.set (h : Area cfg flash o log base) {log' : List (List Elem)} {s : List UInt8}
    (hsize : fcbDiskArea ≤ s.length)
    (hj : j < log'.length) (hgrows : log.length ≤ log'.length) (hle : log'.length ≤ flash.length)
    (hsame : ∀ k < log'.length, k ≠ j → k < log.length ∧ log'.getD k [] = log.getD k [])
    (hnew : HoldsId cfg s ((base + j) % 2 ^ 16) (log'.getD j [])) (hfits : ∀ e ∈ log'.getD j [], e.Fits cfg) :
    Area cfg (flash.set (nthSector flash.length o j) s) o log' base := by
  have hin : nthSector flash.length o j < flash.length := nthSector_lt h.pos
  have hother : ∀ k < flash.length, k ≠ j → (flash.set (nthSector flash.length o j) s).getD
    (nthSector flash.length o k) [] = flash.getD (nthSector flash.length o k) [] := fun k hk hne => by
    rw [getD_set s _ hin, if_neg fun heq => hne (nthSector_inj (by omega) hk heq).symm]
  constructor
  case sizes =>
    intro x hx
    rcases mem_or_eq_of_mem_set hx with hx | rfl
    · exact h.sizes x hx
    · exact hsize
  case oldest => rw [length_set]; exact h.oldest
  case ne => exact length_pos_iff.1 (by omega)
  case length => rwa [length_set]
  case used =>
    intro k hk
    rw [length_set]
    by_cases hkj : k = j
    · subst hkj
      rwa [getD_set s _ hin, if_pos rfl]
    · obtain ⟨hlt, heq⟩ := hsame k hk hkj
      rw [hother k (by omega) hkj, heq]
      exact h.used k hlt
  case free =>
    intro k hge hlt
    rw [length_set] at hlt ⊢
    rw [hother k hlt (by omega)]
    exact h.free k (by omega) hlt
  case fits =>
    intro es hes
    obtain ⟨k, hk, rfl⟩ := getElem_of_mem hes
    rw [← getD_eq_getElem log' [] hk]
    by_cases hkj : k = j
    · subst hkj
      exact hfits
    · obtain ⟨hlt, heq⟩ := hsame k hk hkj
      rw [heq]
      exact h.fits_at hlt

/-- All sectors but one are erased, and that one has a header. -/
theorem Area.fresh (hsizes : ∀ s ∈ flash, fcbDiskArea ≤ s.length) (hi : i < flash.length)
    (hblank : ∀ j, j < flash.length → Blank (flash.getD j []))
    {s : List UInt8} (hs : fcbDiskArea ≤ s.length) (hnew : HoldsId cfg s (base % 2 ^ 16) []) :
    Area cfg (flash.set i s) i [[]] base := by
  have hpos : 0 < flash.length := lt_of_le_of_lt (zero_le _) hi
  constructor
  case sizes =>
    intro x hx
    rcases mem_or_eq_of_mem_set hx with hx | rfl
    · exact hsizes x hx
    · exact hs
  case oldest => rwa [length_set]
  case ne => exact cons_ne_nil _ _
  case length => rw [length_set]; exact hpos
  case used =>
    intro k hk
    obtain rfl : k = 0 := lt_one_iff.1 hk
    rw [length_set, nthSector_zero hi, getD_set s _ hi, if_pos rfl]
    exact hnew
  case free =>
    intro k hge hlt
    rw [length_set] at hlt ⊢
    have hne : i ≠ nthSector flash.length i k := fun heq => by
      have := nthSector_inj hlt hpos (heq.symm.trans (nthSector_zero hi).symm)
      rw [length_singleton] at hge
      omega
    rw [getD_set s _ hi, if_neg hne]
    exact hblank _ (nthSector_lt hpos)
  case fits => simp

theorem nthSector_rotate (k : Nat) : nthSector n (nthSector n o 1) k = nthSector n o (k + 1) := by
  unfold nthSector
  rw [mod_add_mod]
  congr 1
  omega

theorem getD_blank (j : Nat) (hi : i < flash.length) (h : i ≠ j → Blank (flash.getD j [])) :
    Blank ((flash.set i (erased (sectorSize flash i))).getD j []) := by
  rw [getD_set _ _ hi]
  split_ifs with heq
  · rw [Blank, length_erased]
  · exact h heq

/-- **The oldest sector is erased**, and others are in use. -/
theorem Area.rotate {es : List Elem} (h : Area cfg flash o (es :: log) base) (hne : log ≠ []) :
    Area cfg (flash.set o (erased (sectorSize flash o))) (nthSector flash.length o 1) log (base + 1) := by
  have hpos := h.pos
  have ho := h.oldest
  have hle := h.length
  rw [length_cons] at hle
  have hsize : fcbDiskArea ≤ sectorSize flash o := by
    rw [sectorSize, getD_eq_getElem _ _ ho]
    exact h.sizes _ (getElem_mem ho)
  constructor
  case sizes =>
    intro x hx
    rcases mem_or_eq_of_mem_set hx with hx | rfl
    · exact h.sizes x hx
    · rwa [length_erased]
  case oldest => rw [length_set]; exact nthSector_lt hpos
  case ne => exact hne
  case length => rw [length_set]; omega
  case used =>
    intro k hk
    have hother : o ≠ nthSector flash.length o (k + 1) := fun heq => by
      have := (nthSector_succ_eq ho (show k < flash.length by omega)).1 heq.symm
      omega
    rw [length_set, nthSector_rotate, getD_set _ _ ho, if_neg hother]
    have := h.used (k + 1) (succ_lt_succ hk)
    rwa [getD_cons_succ, ← add_assoc, add_right_comm] at this
  case free =>
    intro k hge hlt
    rw [length_set] at hlt ⊢
    rw [nthSector_rotate]
    refine getD_blank _ ho fun hother => ?_
    have hlt' : k + 1 < flash.length := by
      by_contra hend
      exact hother ((nthSector_succ_eq ho hlt).2 (by omega)).symm
    exact h.free (k + 1) (succ_le_succ hge) hlt'
  case fits => exact fun x hx => h.fits x (mem_cons_of_mem _ hx)

end

end Zephyr
