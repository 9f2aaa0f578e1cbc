import Mathlib.Data.Nat.Bitwise
import Zephyr.Fcb.Base
import Zephyr.Lib.Chunks
/-!
# What a sector of the circular buffer holds

A sector in use is its header, entries one behind the other, and the erased rest. Two facts say what the reader
sees: at an entry, its data and whether the checksum is right (`fcbElemInfo_elem`); behind the last one, nothing
(`fcbElemInfo_end`). All else is about lists of entries.
-/
namespace Zephyr

open Flash Chunks List

/-- An entry: the length as written and what fills it up, the data and its padding, the place of the checksum.
`finished` is not in the flash: it says that `fcb_append_finish` has been called for it. -/
structure Elem where
  len : Nat
  lenBytes : List UInt8
  pad : List UInt8
  body : List UInt8
  tail : List UInt8
  finished : Bool
deriving DecidableEq

namespace Elem

def bytes (e : Elem) : List UInt8 := e.lenBytes ++ (e.pad ++ (e.body ++ e.tail))

def crc (e : Elem) : UInt8 := crc8Ccitt (crc8Ccitt crc8CcittInitialValue e.lenBytes) (e.body.take e.len)

/-- The checksum is right. -/
def valid (e : Elem) : Bool := e.tail.getD 0 0 = e.crc

theorem valid_iff {e : Elem} : e.valid = true ↔ e.tail.getD 0 0 = e.crc := decide_eq_true_iff

/-- The parts are as long as `fcb_append` makes them. -/
structure Fits (cfg : FcbCfg) (e : Elem) : Prop where
  put : fcbPutLen cfg e.len = some e.lenBytes
  pad : e.lenBytes.length + e.pad.length = fcbLenInFlash cfg e.lenBytes.length
  body : e.body.length = fcbLenInFlash cfg e.len
  tail : e.tail.length = fcbLenInFlash cfg 1

end Elem

section

variable {cfg : FcbCfg} {flash : List (List UInt8)} {sector n : Nat} {a b c : List UInt8} {e : Elem}

theorem le_fcbLenInFlash (cfg : FcbCfg) (n : Nat) : n ≤ fcbLenInFlash cfg n := by
  unfold fcbLenInFlash
  split_ifs
  · exact le_refl n
  · have := Nat.and_le_right (n := n + (cfg.align - 1)) (m := cfg.align - 1)
    omega

/-! ## The checksum -/

/-- One bit of the division by x⁸ + x² + x + 1. -/
def crcBit (v : UInt8) : UInt8 := (v <<< 1) ^^^ if v &&& 0x80 = 0 then 0 else 7

/-- **The table of 16 entries does the division** (crc8_sw.c:10-26), of four bits at a time. -/
theorem crc8Ccitt_divides (val : UInt8) (buf : List UInt8) :
    crc8Ccitt val buf = buf.foldl (fun v byte => crcBit^[8] (v ^^^ byte)) val := by
  have htable : ∀ v : BitVec 8, crc8Step ⟨v⟩ 0 = crcBit^[8] ⟨v⟩ := by decide +kernel
  unfold crc8Ccitt
  congr 1
  funext v byte
  simpa [crc8Step] using htable (v ^^^ byte).toBitVec

/-! ## Lengths -/

theorem low_byte : ∀ lo : Fin 128, UInt8.ofNat (lo ||| 0x80) &&& 0x80 ≠ 0 ∧
    (UInt8.ofNat (lo ||| 0x80) &&& 0x7f).toNat = lo ∧
    (UInt8.ofNat (lo ||| 0x80) = 0xff → lo.val = 127) := by
  decide

theorem short_byte : ∀ n : Fin 128, UInt8.ofNat n &&& 0x80 = 0 ∧ (UInt8.ofNat n).toNat = n := by
  decide

theorem length_fcbPutLen {len : Nat} {tmp : List UInt8} (h : fcbPutLen cfg len = some tmp) :
    tmp.length = 1 ∨ tmp.length = 2 := by
  unfold fcbPutLen at h
  split_ifs at h
  · cases h
    exact .inl rfl
  · cases h
    exact .inr rfl

/-- **A length is read as it was written**, whatever is behind it. -/
theorem fcbGetLen_put {len : Nat} {tmp : List UInt8} (hmax : cfg.maxLen ≤ 0x7fff)
    (h : fcbPutLen cfg len = some tmp) (rest : List UInt8) :
    fcbGetLen ((tmp ++ rest).getD 0 0) ((tmp ++ rest).getD 1 0) = some (tmp.length, len) := by
  unfold fcbPutLen at h
  split_ifs at h with hshort hlong
  · cases h
    obtain ⟨hbit, hval⟩ := short_byte ⟨len, hshort⟩
    change fcbGetLen (UInt8.ofNat len) _ = _
    rw [fcbGetLen, if_neg (not_not_intro hbit), hval]
    rfl
  · cases h
    have hlo : len &&& 0x7f = len % 128 := Nat.and_two_pow_sub_one_eq_mod len 7
    have hhi : len >>> 7 = len / 128 := Nat.shiftRight_eq_div_pow len 7
    obtain ⟨hbit, hval, hff⟩ := low_byte ⟨len % 128, Nat.mod_lt _ (by decide)⟩
    change fcbGetLen (UInt8.ofNat (len &&& 0x7f ||| 0x80)) (UInt8.ofNat (len >>> 7)) = _
    rw [hlo, hhi, fcbGetLen, if_pos hbit, if_neg, hval]
    · have hbyte : (UInt8.ofNat (len / 128)).toNat = len / 128 := by
        rw [UInt8.toNat_ofNat']
        omega
      have hor : len % 128 ||| (len / 128) <<< 7 = len := by
        rw [Nat.or_comm, Nat.shiftLeft_eq, Nat.mul_comm,
          ← Nat.two_pow_add_eq_or_of_lt (Nat.mod_lt len (by decide : 0 < 2 ^ 7))]
        omega
      rw [hbyte, hor]
      rfl
    · rintro ⟨h₀, h₁⟩
      have hlow : len % 128 = 127 := hff h₀
      have hhigh := congrArg UInt8.toNat h₁
      rw [UInt8.toNat_ofNat'] at hhigh
      change len / 128 % 2 ^ 8 = 255 at hhigh
      omega

/-! ## Reading -/

theorem fcbFlashRead_part (h : flash.getD sector [] = a ++ (b ++ c)) (hlen : b.length = n) :
    fcbFlashRead flash sector a.length n = some b := by
  subst hlen
  have hsize : sectorSize flash sector = a.length + (b.length + c.length) := by
    rw [sectorSize, h, length_append, length_append]
  rw [fcbFlashRead, if_neg (by omega), h, drop_left, take_left]

theorem Elem.Fits.two_le (h : e.Fits cfg) : 2 ≤ e.bytes.length := by
  have hput := length_fcbPutLen h.put
  have htail := h.tail
  have := le_fcbLenInFlash cfg 1
  simp only [Elem.bytes, length_append]
  omega

theorem Elem.Fits.length (h : e.Fits cfg) :
    e.bytes.length = fcbLenInFlash cfg e.lenBytes.length + fcbLenInFlash cfg e.len + fcbLenInFlash cfg 1 := by
  have hpad := h.pad
  have hbody := h.body
  have htail := h.tail
  simp only [Elem.bytes, length_append]
  omega

/-- Where the entry is that begins at `off`. -/
def Elem.loc (cfg : FcbCfg) (e : Elem) (sector off : Nat) : FcbEntry :=
    ⟨sector, off, off + fcbLenInFlash cfg e.lenBytes.length, e.len⟩

/-- **`fcb_elem_crc8` (fcb_elem_info.c:17)** at an entry. -/
theorem fcbElemCrc8_elem (hmax : cfg.maxLen ≤ 0x7fff) (he : e.Fits cfg)
    (h : flash.getD sector [] = a ++ (e.bytes ++ c)) (d l : Nat) :
    fcbElemCrc8 cfg flash ⟨sector, a.length, d, l⟩ = .ok (e.loc cfg sector a.length, e.crc) := by
  have htwo := he.two_le
  have hsize : sectorSize flash sector = a.length + (e.bytes.length + c.length) := by
    rw [sectorSize, h, length_append, length_append]
  have hhead : fcbFlashRead flash sector a.length 2 = some (e.bytes.take 2) := by
    refine fcbFlashRead_part (c := e.bytes.drop 2 ++ c) ?_ (by rw [length_take]; omega)
    rw [h, ← append_assoc (e.bytes.take 2), take_append_drop]
  have hlen : fcbGetLen ((e.bytes.take 2).getD 0 0) ((e.bytes.take 2).getD 1 0) = some (e.lenBytes.length, e.len) := by
    have hget : ∀ i < 2, (e.bytes.take 2).getD i 0 = e.bytes.getD i 0 := fun i hi => by
      simp only [getD_eq_getElem?_getD, List.getElem?_take, if_pos hi]
    rw [hget 0 (by decide), hget 1 (by decide)]
    exact fcbGetLen_put hmax he.put _
  have hput := length_fcbPutLen he.put
  have htake : (e.bytes.take 2).take e.lenBytes.length = e.lenBytes := by
    rw [take_take, min_eq_left (by omega), Elem.bytes, take_left]
  have hdata : fcbFlashRead flash sector (a.length + fcbLenInFlash cfg e.lenBytes.length) e.len = some
    (e.body.take e.len) := by
    have hparts : flash.getD sector [] = (a ++ (e.lenBytes ++ e.pad)) ++
      (e.body.take e.len ++ (e.body.drop e.len ++ e.tail ++ c)) := by
      rw [h, Elem.bytes]
      conv_lhs => rw [← take_append_drop e.len e.body]
      simp only [append_assoc]
    have hoff : (a ++ (e.lenBytes ++ e.pad)).length = a.length + fcbLenInFlash cfg e.lenBytes.length := by
      rw [length_append, length_append, he.pad]
    rw [← hoff]
    refine fcbFlashRead_part hparts ?_
    have := le_fcbLenInFlash cfg e.len
    rw [length_take, he.body]
    omega
  rw [fcbElemCrc8, if_neg (by simp only; omega)]
  simp only [hhead, hlen, htake, hdata]
  split_ifs with hzero
  · rw [Elem.loc, Elem.crc, hzero, take_zero]
    rfl
  · rfl

/-- **`fcb_elem_info` (fcb_elem_info.c:63)** at an entry. -/
theorem fcbElemInfo_elem (hmax : cfg.maxLen ≤ 0x7fff) (he : e.Fits cfg)
    (h : flash.getD sector [] = a ++ (e.bytes ++ c)) (d l : Nat) :
    fcbElemInfo cfg flash ⟨sector, a.length, d, l⟩ = (if e.valid then 0 else fcbErrCrc, e.loc cfg sector a.length) := by
  have htail : fcbFlashRead flash sector (a.length + fcbLenInFlash cfg e.lenBytes.length + fcbLenInFlash cfg e.len) 1 =
      some (e.tail.take 1) := by
    have hparts : flash.getD sector [] = (a ++ (e.lenBytes ++ (e.pad ++ e.body))) ++
      (e.tail.take 1 ++ (e.tail.drop 1 ++ c)) := by
      rw [h, Elem.bytes]
      conv_lhs => rw [← take_append_drop 1 e.tail]
      simp only [append_assoc]
    have hoff : (a ++ (e.lenBytes ++ (e.pad ++ e.body))).length =
      a.length + fcbLenInFlash cfg e.lenBytes.length + fcbLenInFlash cfg e.len := by
      have hpad := he.pad
      have hbody := he.body
      simp only [length_append]
      omega
    rw [← hoff]
    refine fcbFlashRead_part hparts ?_
    have := le_fcbLenInFlash cfg 1
    rw [length_take, he.tail]
    omega
  have hbyte : (e.tail.take 1).getD 0 0 = e.tail.getD 0 0 := by
    cases e.tail <;> rfl
  simp only [fcbElemInfo, fcbElemCrc8_elem hmax he h d l, Elem.loc, htail, hbyte]
  by_cases hcrc : e.tail.getD 0 0 = e.crc
  · rw [if_neg (not_not_intro hcrc), if_pos (Elem.valid_iff.2 hcrc)]
  · rw [if_pos hcrc, if_neg (mt Elem.valid_iff.1 hcrc)]

/-- Behind the last entry there is nothing, also where fewer than two bytes are left. -/
theorem fcbElemInfo_end (h : flash.getD sector [] = a ++ erased n) (d l : Nat) :
    fcbElemInfo cfg flash ⟨sector, a.length, d, l⟩ = (fcbErrNovar, ⟨sector, a.length, d, l⟩) := by
  have hsize : sectorSize flash sector = a.length + n := by rw [sectorSize, h, length_append, length_erased]
  by_cases hlt : n < 2
  · have hread : fcbFlashRead flash sector a.length 2 = none := if_pos (by omega)
    simp only [fcbElemInfo, fcbElemCrc8, FcbEntry.fill, hread]
    rw [if_pos (by omega)]
  · have hread : fcbFlashRead flash sector a.length 2 = some [0xff, 0xff] := by
      refine fcbFlashRead_part (c := erased (n - 2)) ?_ rfl
      rw [h]
      congr 1
      obtain ⟨k, rfl⟩ : ∃ k, n = k + 2 := ⟨n - 2, by omega⟩
      rfl
    simp only [fcbElemInfo, fcbElemCrc8, FcbEntry.fill, hread]
    rw [if_neg (by omega)]
    rfl

end

end Zephyr
