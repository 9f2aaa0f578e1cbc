import Zephyr.Fcb.Inv
/-!
# What the operations do to the log (subsys/fs/fcb/fcb_append.c, fcb_rotate.c)

Each operation is a few writes to the flash, and `FcbInv` holds after each of them. `log` is taken apart where the
operation works: at its end, `front ++ [last]`, or at one entry, `front ++ (a ++ e :: b) :: back`.
-/
namespace Zephyr

open Flash Chunks List

/-- One write to the flash, which leaves the sizes and the oldest sector. -/
structure Wrote (fcb fcb' : Fcb) : Prop where
  past : fcb'.past = fcb.flash :: fcb.past
  oldest : fcb'.oldest = fcb.oldest
  table : fcb'.flash.map List.length = fcb.flash.map List.length

/-- The flash and its past after a write that leaves `s` in a sector. -/
def Fcb.put (fcb : Fcb) (sector : Nat) (s : List UInt8) : Fcb :=
  { fcb with flash := fcb.flash.set sector s, past := fcb.flash :: fcb.past }

variable {i sector x len : Nat} {s d tmp : List UInt8} {es : List Elem}

section

variable {cfg : FcbCfg} {fcb fcb' : Fcb} {flash : List (List UInt8)} {log front back : List (List Elem)}
    {last a b : List Elem} {e e' : Elem} {base : Nat}

/-! ## One sector -/

theorem table_set (h : s.length = sectorSize flash i) : (flash.set i s).map List.length = flash.map List.length := by
  by_cases hi : i < flash.length
  · rw [map_set, h, sectorSize, getD_eq_getElem _ _ hi, ← getElem_map List.length (h := by rwa [length_map])]
    exact set_getElem_self _
  · rw [set_eq_of_length_le (Nat.le_of_not_lt hi)]

theorem Wrote.length (h : Wrote fcb fcb') : fcb'.flash.length = fcb.flash.length := by
  have := congrArg List.length h.table
  rwa [length_map, length_map] at this

theorem Wrote.sectorSize_eq (h : Wrote fcb fcb') (i : Nat) : sectorSize fcb'.flash i = sectorSize fcb.flash i := by
  have hget : ∀ l : List (List UInt8), sectorSize l i = (l.map List.length).getD i 0 := fun l => by
    simp only [sectorSize, getD_eq_getElem?_getD, List.getElem?_map]
    cases l[i]? <;> rfl
  rw [hget, hget, h.table]

theorem wrote_put (h : s.length = sectorSize fcb.flash sector) : Wrote fcb (fcb.put sector s) :=
  ⟨rfl, rfl, table_set h⟩

theorem fcbFlashWrite_put {off : Nat} {src : List UInt8} (h : off + src.length ≤ sectorSize fcb.flash sector) :
    fcbFlashWrite fcb sector off src = some (fcb.put sector (program (fcb.flash.getD sector []) off src)) := by
  rw [fcbFlashWrite, if_neg (not_lt.2 h)]
  rfl

/-- A header is written to an erased sector. -/
theorem Blank.header (hs : Blank s) (hsize : fcbDiskArea ≤ s.length) (id : Nat) :
    HoldsId cfg (program s 0 (fcbDiskHdr cfg id)) id [] := by
  have h := program_erased (a := []) (d := fcbDiskHdr cfg id) hsize
  rw [nil_append, ← hs] at h
  exact ⟨_, h⟩

theorem Area.size (h : Area cfg flash o log base) (hi : i < flash.length) : fcbDiskArea ≤ sectorSize flash i := by
  rw [sectorSize, getD_eq_getElem _ _ hi]
  exact h.sizes _ (getElem_mem hi)

/-! ## A further sector -/

theorem getD_append_singleton {α : Type} (l : List α) (x d : α) (k : Nat) :
    (l ++ [x]).getD k d = if k = l.length then x else l.getD k d := by
  simp only [getD_eq_getElem?_getD, List.getElem?_append]
  by_cases hlt : k < l.length
  · rw [if_pos hlt, if_neg (ne_of_lt hlt)]
  · rw [if_neg hlt]
    by_cases heq : k = l.length
    · rw [if_pos heq, heq, Nat.sub_self]
      rfl
    · rw [if_neg heq, List.getElem?_eq_none (by simp; omega), List.getElem?_eq_none (by omega)]

theorem length_header (cfg : FcbCfg) (hsize : fcbDiskArea ≤ sectorSize flash sector) (id : Nat) :
    (program (flash.getD sector []) 0 (fcbDiskHdr cfg id)).length = sectorSize flash sector :=
  length_program (by rwa [zero_add])

theorem useSector_eq (hsize : fcbDiskArea ≤ sectorSize fcb.flash sector) :
    useSector cfg fcb sector = .ok { fcb.put sector
      (program (fcb.flash.getD sector []) 0 (fcbDiskHdr cfg ((fcb.activeId + 1) % 2 ^ 16))) with
      active := sector, elemOff := fcbDiskArea, activeId := (fcb.activeId + 1) % 2 ^ 16 } := by
  rw [useSector, fcbSectorHdrInit, fcbFlashWrite_put (by rwa [zero_add])]
  rfl

/-- **The header of the next sector is written**, and that becomes the active one. -/
theorem useSector_inv (h : FcbInv cfg fcb log base) (hlt : log.length < fcb.flash.length) :
    ∃ fcb', useSector cfg fcb (nthSector fcb.flash.length fcb.oldest log.length) = .ok fcb' ∧ Wrote fcb fcb' ∧
    FcbInv cfg fcb' (log ++ [[]]) base := by
  have hpos := h.area.length_pos
  have hsize := h.area.size (nthSector_lt h.area.pos (o := fcb.oldest) (k := log.length))
  have hid : (fcb.activeId + 1) % 2 ^ 16 = (base + log.length) % 2 ^ 16 := by
    rw [h.activeId, Nat.mod_add_mod]
    congr 1
    omega
  have hlen := length_header cfg hsize ((fcb.activeId + 1) % 2 ^ 16)
  refine ⟨_, useSector_eq hsize, ⟨rfl, rfl, table_set hlen⟩, ?_, ?_, ?_, ?_⟩
  · refine h.area.set (by rw [hlen]; exact hsize) (by simp) (by simp) (by rw [length_append]; exact hlt) ?_ ?_ ?_
    · intro k hk hne
      rw [length_append, length_singleton] at hk
      exact ⟨by omega, by rw [getD_append_singleton, if_neg hne]⟩
    · rw [getD_append_singleton, if_pos rfl, ← hid]
      exact (h.area.free _ (le_refl _) hlt).header hsize _
    · rw [getD_append_singleton, if_pos rfl]
      exact fun x hx => absurd hx not_mem_nil
  · simp [Fcb.put]
  · simp
  · simpa using hid

/-- **`fcb_append_to_scratch` (fcb_append.c:39)** -/
theorem fcbAppendToScratch_inv (h : FcbInv cfg fcb log base) :
    match fcbAppendToScratch cfg fcb with
    | .error rc => rc = fcbErrNospace ∧ fcbFreeSectorCnt fcb = 0
    | .ok fcb' => log.length < fcb.flash.length ∧ Wrote fcb fcb' ∧ FcbInv cfg fcb' (log ++ [[]]) base := by
  rw [fcbAppendToScratch, h.fcbNewSector_eq, h.fcbFreeSectorCnt_eq]
  by_cases hnone : fcb.flash.length - log.length < 0 + 1
  · rw [if_pos hnone]
    exact ⟨rfl, Nat.lt_one_iff.1 hnone⟩
  · have hlt : log.length < fcb.flash.length := by omega
    obtain ⟨fcb', heq, hwrote, hinv⟩ := useSector_inv h hlt
    rw [if_neg hnone]
    simp only [heq]
    exact ⟨hlt, hwrote, hinv⟩

/-- Room in the active sector, or in the next one, which becomes the active one. -/
theorem makeRoom_inv (h : FcbInv cfg fcb log base) (size : Nat) :
    match makeRoom cfg fcb size with
    | .error rc => rc = fcbErrNospace ∧ sectorSize fcb.flash fcb.active < fcb.elemOff + size ∧
        (fcbFreeSectorCnt fcb < cfg.scratchCnt + 1 ∨
          sectorSize fcb.flash (fcbGetnextSector fcb.flash fcb.active) < fcbDiskArea + size)
    | .ok fcb' => fcb'.elemOff + size ≤ sectorSize fcb'.flash fcb'.active ∧
        (fcb' = fcb ∨ Wrote fcb fcb' ∧ FcbInv cfg fcb' (log ++ [[]]) base) := by
  rw [makeRoom, h.fcbNewSector_eq, h.fcbFreeSectorCnt_eq]
  by_cases hroom : fcb.elemOff + size > sectorSize fcb.flash fcb.active
  · rw [if_pos hroom]
    by_cases hnone : fcb.flash.length - log.length < cfg.scratchCnt + 1
    · rw [if_pos hnone]
      exact ⟨rfl, hroom, .inl hnone⟩
    · rw [if_neg hnone]
      by_cases hsmall : sectorSize fcb.flash (nthSector fcb.flash.length fcb.oldest log.length) < fcbDiskArea + size
      · simp only [if_pos hsmall, h.next_active]
        exact ⟨trivial, hroom, .inr hsmall⟩
      · obtain ⟨fcb', heq, hwrote, hinv⟩ := useSector_inv h (show log.length < fcb.flash.length by omega)
        simp only [if_neg hsmall, heq]
        refine ⟨?_, .inr ⟨hwrote, hinv⟩⟩
        have hoff : fcb'.elemOff = fcbDiskArea := by simpa using hinv.elemOff
        have hactive : fcb'.active = nthSector fcb.flash.length fcb.oldest log.length := by
          have := hinv.active
          rwa [length_append, length_singleton, Nat.add_sub_cancel, hwrote.length, hwrote.oldest] at this
        rw [hwrote.sectorSize_eq, hoff, hactive]
        omega
  · rw [if_neg hroom]
    exact ⟨Nat.le_of_not_lt hroom, .inl rfl⟩

/-! ## One entry -/

theorem getD_mid (x : List Elem) : (front ++ x :: back).getD front.length [] = x := by
  simp [getD_eq_getElem?_getD]

theorem getD_mid_ne (x y : List Elem) {k : Nat} (h : k ≠ front.length) :
    (front ++ x :: back).getD k [] = (front ++ y :: back).getD k [] := by
  simp only [getD_eq_getElem?_getD, List.getElem?_append]
  split_ifs with hlt
  · rfl
  · obtain ⟨j, hj⟩ : ∃ j, k - front.length = j + 1 := ⟨k - front.length - 1, by omega⟩
    rw [hj, List.getElem?_cons_succ, List.getElem?_cons_succ]

/-- What one sector holds is replaced. -/
theorem Area.replace {o : Nat} {es' : List Elem} (h : Area cfg flash o (front ++ es :: back) base)
    (hs : HoldsId cfg s ((base + front.length) % 2 ^ 16) es')
    (hsize : s.length = sectorSize flash (nthSector flash.length o front.length)) (hfits : ∀ x ∈ es', x.Fits cfg) :
    Area cfg (flash.set (nthSector flash.length o front.length) s) o (front ++ es' :: back) base := by
  have hlen : (front ++ es' :: back).length = (front ++ es :: back).length := by simp
  refine h.set (by rw [hsize]; exact h.size (nthSector_lt h.pos)) (by simp) hlen.ge (hlen ▸ h.length) ?_
    (by rwa [getD_mid]) (by rwa [getD_mid])
  intro k hk hne
  exact ⟨hlen ▸ hk, getD_mid_ne es' es hne⟩

/-- The sector in use behind those of `front`. -/
abbrev Fcb.behind (fcb : Fcb) (front : List (List Elem)) : Nat := nthSector fcb.flash.length fcb.oldest front.length

theorem FcbInv.replace {es' : List Elem} (h : FcbInv cfg fcb (front ++ es :: back) base)
    (hs : HoldsId cfg s ((base + front.length) % 2 ^ 16) es')
    (hsize : s.length = sectorSize fcb.flash (fcb.behind front))
    (hfits : ∀ x ∈ es', x.Fits cfg) (hlen : (content Elem.bytes es').length = (content Elem.bytes es).length) :
    FcbInv cfg (fcb.put (fcb.behind front) s) (front ++ es' :: back) base := by
  have hlog : (front ++ es' :: back).length = (front ++ es :: back).length := by simp
  refine ⟨h.area.replace hs hsize hfits, ?_, ?_, ?_⟩
  · rw [hlog]
    simpa [Fcb.put] using h.active
  · rw [hlog]
    change fcb.elemOff = _
    rw [h.elemOff]
    congr 1
    by_cases hlast : (front ++ es :: back).length - 1 = front.length
    · rw [hlast, getD_mid, getD_mid, hlen]
    · rw [getD_mid_ne es' es hlast]
  · rw [hlog]
    exact h.activeId

/-- A write inside of one entry. -/
theorem HoldsId.write {id : Nat} (h : HoldsId cfg s id (a ++ e :: b)) (hx : x + d.length ≤ e.bytes.length)
    (hbytes : e'.bytes = program e.bytes x d) :
    HoldsId cfg (program s (fcbDiskArea + (content Elem.bytes a).length + x) d) id (a ++ e' :: b) := by
  obtain ⟨n, rfl⟩ := h
  refine ⟨n, ?_⟩
  have hpart := program_part (a := fcbDiskHdr cfg id ++ content Elem.bytes a) (b := e.bytes)
    (c := content Elem.bytes b ++ erased n) hx
  rw [length_append, length_fcbDiskHdr, ← hbytes] at hpart
  simpa only [content_append, content_cons, append_assoc] using hpart

/-- What `fcb_append` leaves of an entry: its length. -/
def Elem.fresh (cfg : FcbCfg) (len : Nat) (tmp pad : List UInt8) : Elem :=
  ⟨len, tmp, pad, erased (fcbLenInFlash cfg len), erased (fcbLenInFlash cfg 1), false⟩

theorem HoldsId.append {id : Nat} {pad : List UInt8} (h : HoldsId cfg s id es)
    (hroom : fcbDiskArea + (content Elem.bytes es).length + (Elem.fresh cfg len tmp pad).bytes.length ≤ s.length) :
    HoldsId cfg (program s (fcbDiskArea + (content Elem.bytes es).length) (tmp ++ pad)) id
    (es ++ [Elem.fresh cfg len tmp pad]) := by
  obtain ⟨n, rfl⟩ := h
  have hbytes : (Elem.fresh cfg len tmp pad).bytes = (tmp ++ pad) ++
    erased (fcbLenInFlash cfg len + fcbLenInFlash cfg 1) := by
    simp only [Elem.bytes, Elem.fresh, append_assoc, erased_append]
  simp only [hbytes, length_append, length_fcbDiskHdr, length_erased] at hroom
  have hfront : (fcbDiskHdr cfg id ++ content Elem.bytes es).length = fcbDiskArea + (content Elem.bytes es).length := by
    rw [length_append, length_fcbDiskHdr]
  refine ⟨n - (Elem.fresh cfg len tmp pad).bytes.length, ?_⟩
  have hwrite := program_erased (a := fcbDiskHdr cfg id ++ content Elem.bytes es) (d := tmp ++ pad) (n := n)
    (by rw [length_append]; omega)
  have hrest : erased (n - (tmp ++ pad).length) = erased (fcbLenInFlash cfg len + fcbLenInFlash cfg 1) ++
      erased (n - (Elem.fresh cfg len tmp pad).bytes.length) := by
    rw [hbytes, erased_append]
    congr 1
    simp only [length_append, length_erased]
    omega
  rw [hfront, hrest] at hwrite
  simpa only [content_append, content_cons, content_nil, append_nil, append_assoc, hbytes] using hwrite

/-- **The length of a new entry is written** behind the last one. -/
theorem FcbInv.addElem {pad : List UInt8} (h : FcbInv cfg fcb (front ++ [last]) base)
    (he : (Elem.fresh cfg len tmp pad).Fits cfg)
    (hroom : fcb.elemOff + (Elem.fresh cfg len tmp pad).bytes.length ≤ sectorSize fcb.flash fcb.active) :
    ∃ fcb₁, fcbFlashWrite fcb fcb.active fcb.elemOff (tmp ++ pad) = some fcb₁ ∧ Wrote fcb fcb₁ ∧
      FcbInv cfg { fcb₁ with elemOff := fcb.elemOff + (Elem.fresh cfg len tmp pad).bytes.length }
        (front ++ [last ++ [Elem.fresh cfg len tmp pad]]) base := by
  have hsub : (front ++ [last]).length - 1 = front.length := by simp
  have hactive := h.active
  have hoff := h.elemOff
  have hid := h.activeId
  rw [hsub] at hactive hoff hid
  rw [getD_mid] at hoff
  have hsplit : (tmp ++ pad).length ≤ (Elem.fresh cfg len tmp pad).bytes.length := by
    simp only [Elem.bytes, Elem.fresh, length_append]
    omega
  have hused := h.area.used front.length (by simp)
  rw [getD_mid, ← hactive] at hused
  refine ⟨_, fcbFlashWrite_put (by omega), ?_, ?_, ?_, ?_, ?_⟩
  · exact wrote_put (length_program (by rw [← sectorSize]; omega))
  · rw [hactive] at hroom hused ⊢
    refine h.area.replace ?_ (length_program (by rw [← sectorSize]; omega)) ?_
    · rw [hoff]
      exact hused.append (by rw [← hoff]; exact hroom)
    · intro x hx
      rcases mem_append.1 hx with hx | hx
      · exact h.area.fits _ (by simp) x hx
      · rw [mem_singleton.1 hx]
        exact he
  · simpa [Fcb.put] using hactive
  · rw [show (front ++ [last ++ [Elem.fresh cfg len tmp pad]]).length - 1 = front.length by simp, getD_mid,
      content_append, length_append, ← add_assoc, ← hoff]
    simp
  · rw [show (front ++ [last ++ [Elem.fresh cfg len tmp pad]]).length - 1 = front.length by simp]
    exact hid

theorem Elem.fresh_fits (hput : fcbPutLen cfg len = some tmp) (junk : Nat → UInt8) :
    (Elem.fresh cfg len tmp ((List.range (fcbLenInFlash cfg tmp.length - tmp.length)).map junk)).Fits cfg where
  put := hput
  pad := by
    have := le_fcbLenInFlash cfg tmp.length
    simp only [Elem.fresh, length_map, length_range]
    omega
  body := length_erased
  tail := length_erased

/-- **`fcb_append` (fcb_append.c:59)**: perhaps a further sector is taken, then the length is written. -/
theorem fcbAppend_inv (h : FcbInv cfg fcb log base) (junk : Nat → UInt8) (len : Nat) (appendLoc : FcbEntry) :
    match fcbAppend cfg junk fcb len appendLoc with
    | .error rc => rc = fcbErrArgs ∧ fcbPutLen cfg len = none ∨
        rc = fcbErrNospace ∧ ∃ tmp size, fcbPutLen cfg len = some tmp ∧
          size = fcbLenInFlash cfg len + fcbLenInFlash cfg 1 + fcbLenInFlash cfg tmp.length ∧
          sectorSize fcb.flash fcb.active < fcb.elemOff + size ∧
          (fcbFreeSectorCnt fcb < cfg.scratchCnt + 1 ∨
            sectorSize fcb.flash (fcbGetnextSector fcb.flash fcb.active) < fcbDiskArea + size)
    | .ok (fcb', loc) => ∃ fcb₁ front last tmp pad,
        (fcb₁ = fcb ∧ log = front ++ [last] ∨ Wrote fcb fcb₁ ∧ log = front ∧ last = []) ∧
        FcbInv cfg fcb₁ (front ++ [last]) base ∧
        (Elem.fresh cfg len tmp pad).Fits cfg ∧ Wrote fcb₁ fcb' ∧
        FcbInv cfg fcb' (front ++ [last ++ [Elem.fresh cfg len tmp pad]]) base ∧
        loc = { (Elem.fresh cfg len tmp pad).loc cfg (fcb.behind front)
          (fcbDiskArea + (content Elem.bytes last).length) with
          dataLen := appendLoc.dataLen } := by
  rw [fcbAppend]
  cases hput : fcbPutLen cfg len with
  | none => exact .inl ⟨rfl, rfl⟩
  | some tmp =>
    have hroom := makeRoom_inv h (fcbLenInFlash cfg len + fcbLenInFlash cfg 1 + fcbLenInFlash cfg tmp.length)
    simp only
    cases hmake : makeRoom cfg fcb (fcbLenInFlash cfg len + fcbLenInFlash cfg 1 + fcbLenInFlash cfg tmp.length) with
    | error rc =>
      rw [hmake] at hroom
      obtain ⟨rfl, hfull, hwhy⟩ := hroom
      exact .inr ⟨rfl, tmp, _, rfl, rfl, hfull, hwhy⟩
    | ok fcb₁ =>
      rw [hmake] at hroom
      obtain ⟨hsize, hfrom⟩ := hroom
      obtain ⟨front, last, hlog, hinv⟩ : ∃ front last,
          (fcb₁ = fcb ∧ log = front ++ [last] ∨ Wrote fcb fcb₁ ∧ log = front ∧ last = []) ∧
          FcbInv cfg fcb₁ (front ++ [last]) base := by
        rcases hfrom with rfl | ⟨hwrote, hinv⟩
        · obtain ⟨front, last, rfl⟩ : ∃ front last, log = front ++ [last] :=
            ⟨_, _, (dropLast_append_getLast h.area.ne).symm⟩
          exact ⟨front, last, .inl ⟨rfl, rfl⟩, h⟩
        · exact ⟨log, [], .inr ⟨hwrote, rfl, rfl⟩, hinv⟩
      have hfits := Elem.fresh_fits hput junk
      have hlen := hfits.length
      obtain ⟨fcb₂, hwrite, hwrote, hinv'⟩ := hinv.addElem hfits (by rw [hlen]; simp only [Elem.fresh]; omega)
      simp only [bind, Except.bind, hwrite, pure, Except.pure]
      have hsame : fcb₁.flash.length = fcb.flash.length ∧ fcb₁.oldest = fcb.oldest := by
        rcases hlog with ⟨rfl, -⟩ | ⟨hwrote, -, -⟩
        · exact ⟨rfl, rfl⟩
        · exact ⟨hwrote.length, hwrote.oldest⟩
      have hactive := hinv.active
      have hoff := hinv.elemOff
      rw [show (front ++ [last]).length - 1 = front.length by simp] at hactive hoff
      rw [getD_mid] at hoff
      refine ⟨fcb₁, front, last, tmp, _, hlog, hinv, hfits, ⟨hwrote.past, hwrote.oldest, hwrote.table⟩, ?_, ?_⟩
      · rw [hlen] at hinv'
        simpa only [Elem.fresh, add_assoc] using hinv'
      · rw [Fcb.behind, ← hsame.1, ← hsame.2, ← hactive, ← hoff]
        rfl

/-- Where an entry is. -/
theorem FcbInv.entryAt (h : FcbInv cfg fcb (front ++ (a ++ e :: b) :: back) base) :
    ∃ n, fcb.flash.getD (fcb.behind front) [] = (fcbDiskHdr cfg ((base + front.length) % 2 ^ 16) ++
      content Elem.bytes a) ++ (e.bytes ++ (content Elem.bytes b ++ erased n)) := by
  obtain ⟨n, hn⟩ := h.area.used front.length (by simp)
  rw [getD_mid] at hn
  refine ⟨n, hn.trans ?_⟩
  simp only [content_append, content_cons, append_assoc]

/-- Bytes of one entry are written. -/
theorem FcbInv.write (h : FcbInv cfg fcb (front ++ (a ++ e :: b) :: back) base) (hx : x + d.length ≤ e.bytes.length)
    (hbytes : e'.bytes = program e.bytes x d) (he' : e'.Fits cfg) :
    ∃ fcb', fcbFlashWrite fcb (fcb.behind front) (fcbDiskArea + (content Elem.bytes a).length + x) d = some fcb' ∧
      Wrote fcb fcb' ∧ FcbInv cfg fcb' (front ++ (a ++ e' :: b) :: back) base := by
  have hused := h.area.used front.length (by simp)
  rw [getD_mid] at hused
  have hsize : fcbDiskArea + (content Elem.bytes a).length + x + d.length ≤ sectorSize fcb.flash
    (fcb.behind front) := by
    obtain ⟨n, hn⟩ := hused
    rw [sectorSize, hn]
    simp only [content_append, content_cons, length_append, length_fcbDiskHdr]
    omega
  have hlen : e'.bytes.length = e.bytes.length := by rw [hbytes, length_program hx]
  refine ⟨_, fcbFlashWrite_put hsize, wrote_put (length_program hsize), ?_⟩
  refine h.replace (hused.write hx hbytes) (length_program hsize) ?_ ?_
  · intro y hy
    have hmem := h.area.fits (a ++ e :: b) (by simp) y
    rcases mem_append.1 hy with hy | hy
    · exact hmem (mem_append_left _ hy)
    · rcases mem_cons.1 hy with rfl | hy
      · exact he'
      · exact hmem (mem_append_right _ (mem_cons_of_mem _ hy))
  · simp only [content_append, content_cons, length_append, hlen]

theorem Elem.Fits.inner (he : e.Fits cfg) : (e.lenBytes ++ e.pad).length = fcbLenInFlash cfg e.lenBytes.length := by
  rw [length_append, he.pad]

/-- **The caller writes data** of an entry that `fcb_append` has given it. -/
theorem FcbInv.writeBody (h : FcbInv cfg fcb (front ++ (a ++ e :: b) :: back) base)
    (hx : x + d.length ≤ e.body.length) :
    ∃ fcb', fcbFlashWrite fcb (fcb.behind front)
        (fcbDiskArea + (content Elem.bytes a).length + fcbLenInFlash cfg e.lenBytes.length + x) d = some fcb' ∧
      Wrote fcb fcb' ∧ FcbInv cfg fcb' (front ++ (a ++ { e with body := program e.body x d } :: b) :: back) base := by
  have he : e.Fits cfg := h.area.fits (a ++ e :: b) (by simp) e (by simp)
  have hlen := he.length
  have hbody := he.body
  have hbytes : ({ e with body := program e.body x d } : Elem).bytes = program e.bytes
    (fcbLenInFlash cfg e.lenBytes.length + x) d := by
    have hpart := program_part (a := e.lenBytes ++ e.pad) (b := e.body) (c := e.tail) hx
    rw [he.inner] at hpart
    simpa only [Elem.bytes, append_assoc] using hpart.symm
  have hfits : ({ e with body := program e.body x d } : Elem).Fits cfg :=
    { he with body := by rw [← he.body]; exact length_program hx }
  rw [add_assoc _ (fcbLenInFlash cfg e.lenBytes.length)]
  exact h.write (by omega) hbytes hfits

/-- The entry with its checksum. -/
def Elem.seal (e : Elem) : Elem := { e with tail := program e.tail 0 [e.crc], finished := true }

theorem Elem.seal_valid (he : e.Fits cfg) (htail : e.tail = erased e.tail.length) : e.seal.valid = true := by
  have hone := le_fcbLenInFlash cfg 1
  rw [← he.tail] at hone
  have hseal : program e.tail 0 [e.crc] = [e.crc] ++ erased (e.tail.length - 1) := by
    have := program_erased (a := []) (d := [e.crc]) (n := e.tail.length) hone
    rw [nil_append, ← htail] at this
    exact this
  rw [Elem.valid_iff, Elem.seal, hseal]
  rfl

/-- **`fcb_append_finish` (fcb_append.c:115)**: it fails where its `f_align` bytes do not fit, for an alignment
that is no power of two. -/
theorem fcbAppendFinish_inv (hmax : cfg.maxLen ≤ 0x7fff)
    (h : FcbInv cfg fcb (front ++ (a ++ e :: b) :: back) base) (d l : Nat) :
    match fcbAppendFinish cfg fcb ⟨fcb.behind front, fcbDiskArea + (content Elem.bytes a).length, d, l⟩ with
    | .error rc => rc = fcbErrFlash ∧ fcbLenInFlash cfg 1 < 1 + (cfg.align - 1)
    | .ok (fcb', loc) =>
      loc = e.loc cfg (fcb.behind front) (fcbDiskArea + (content Elem.bytes a).length) ∧
        Wrote fcb fcb' ∧ FcbInv cfg fcb' (front ++ (a ++ e.seal :: b) :: back) base := by
  have he : e.Fits cfg := h.area.fits (a ++ e :: b) (by simp) e (by simp)
  have hlen := he.length
  have hone := le_fcbLenInFlash cfg 1
  obtain ⟨n, hsector⟩ := h.entryAt
  have hcrc := fcbElemCrc8_elem hmax he hsector d l
  rw [length_append, length_fcbDiskHdr] at hcrc
  have hsize : fcbDiskArea + (content Elem.bytes a).length + e.bytes.length ≤
      sectorSize fcb.flash (fcb.behind front) := by
    rw [sectorSize, hsector]
    simp only [length_append, length_fcbDiskHdr]
    omega
  simp only [fcbAppendFinish, hcrc, bind, Except.bind, Elem.loc]
  by_cases hfit : fcbDiskArea + (content Elem.bytes a).length + fcbLenInFlash cfg e.lenBytes.length +
      fcbLenInFlash cfg e.len + (1 + (cfg.align - 1)) ≤
      sectorSize fcb.flash (fcb.behind front)
  · have hones : fcbFlashWrite fcb (fcb.behind front)
        (fcbDiskArea + (content Elem.bytes a).length + fcbLenInFlash cfg e.lenBytes.length + fcbLenInFlash cfg e.len)
        (e.crc :: erased (cfg.align - 1)) =
        fcbFlashWrite fcb (fcb.behind front) (fcbDiskArea + (content Elem.bytes a).length +
            (fcbLenInFlash cfg e.lenBytes.length + fcbLenInFlash cfg e.len)) [e.crc] := by
      rw [fcbFlashWrite_put (by rw [length_cons, length_erased]; omega),
        fcbFlashWrite_put (by rw [length_singleton]; omega),
        ← add_assoc]
      exact congrArg some (congrArg (fcb.put _) (program_ones [e.crc] hfit))
    have hbytes : e.seal.bytes = program e.bytes
      (fcbLenInFlash cfg e.lenBytes.length + fcbLenInFlash cfg e.len) [e.crc] := by
      have htail : 0 + [e.crc].length ≤ e.tail.length := by rw [he.tail]; exact hone
      have hpart := program_part (a := e.lenBytes ++ e.pad ++ e.body) (b := e.tail) (c := []) htail
      rw [length_append, he.inner, he.body, add_zero, append_nil, append_nil] at hpart
      simpa only [Elem.bytes, Elem.seal, append_assoc] using hpart.symm
    have hfits : e.seal.Fits cfg := { he with
      tail := by
        rw [← he.tail]
        exact length_program (by rw [he.tail]; exact hone) }
    obtain ⟨fcb', hwrite, hwrote, hinv⟩ := h.write (by rw [hlen, length_singleton]; omega) hbytes hfits
    simp only [hones, hwrite]
    exact ⟨trivial, hwrote, hinv⟩
  · have hnone : fcbFlashWrite fcb (fcb.behind front)
        (fcbDiskArea + (content Elem.bytes a).length + fcbLenInFlash cfg e.lenBytes.length + fcbLenInFlash cfg e.len)
        (e.crc :: erased (cfg.align - 1)) = none := by
      rw [fcbFlashWrite, if_pos (by rw [length_cons, length_erased]; omega)]
    simp only [hnone]
    exact ⟨trivial, by omega⟩

/-! ## The oldest sector -/

/-- The header of a sector is written, and all of them are erased. -/
theorem useSector_fresh (hsizes : ∀ s ∈ fcb.flash, fcbDiskArea ≤ s.length)
    (hblank : ∀ j, j < fcb.flash.length → Blank (fcb.flash.getD j []))
    (hi : i < fcb.flash.length) (hid : (fcb.activeId + 1) % 2 ^ 16 = base % 2 ^ 16) :
    ∃ fcb', useSector cfg fcb i = .ok fcb' ∧ fcb'.flash.map List.length = fcb.flash.map List.length ∧
    FcbInv cfg { fcb' with oldest := i } [[]] base := by
  have hsize : fcbDiskArea ≤ sectorSize fcb.flash i := by
    rw [sectorSize, getD_eq_getElem _ _ hi]
    exact hsizes _ (getElem_mem hi)
  have hlen := length_header cfg hsize ((fcb.activeId + 1) % 2 ^ 16)
  refine ⟨_, useSector_eq hsize, table_set hlen, ?_, ?_, rfl, hid⟩
  · refine Area.fresh hsizes hi hblank (by rw [hlen]; exact hsize) ?_
    rw [← hid]
    exact (hblank i hi).header hsize _
  · simp only [Fcb.put, length_set]
    exact (nthSector_zero hi).symm

/-- With its only sector erased, the buffer is. -/
theorem FcbInv.erase_only (h : FcbInv cfg fcb [es] base) :
    (∀ s ∈ (fcbEraseSector fcb fcb.oldest).flash, fcbDiskArea ≤ s.length) ∧
    ∀ j, j < (fcbEraseSector fcb fcb.oldest).flash.length →
    Blank ((fcbEraseSector fcb fcb.oldest).flash.getD j []) := by
  have ho := h.area.oldest
  constructor
  · intro s hs
    rcases mem_or_eq_of_mem_set hs with hs | rfl
    · exact h.area.sizes s hs
    · rw [length_erased]
      exact h.area.size ho
  · intro j hj
    refine getD_blank j ho fun hne => ?_
    obtain ⟨k, hk, rfl⟩ := nthSector_surj ho (show j < fcb.flash.length by simpa [fcbEraseSector] using hj)
    refine h.area.free k ?_ hk
    by_contra hlt
    exact hne (by rw [Nat.lt_one_iff.1 (Nat.lt_of_not_le hlt), nthSector_zero ho])

/-- **`fcb_rotate` (fcb_rotate.c:11)** -/
theorem fcbRotate_inv (h : FcbInv cfg fcb (es :: log) base) :
    ∃ fcb', fcbRotate cfg fcb = .ok fcb' ∧ fcb'.oldest = nthSector fcb.flash.length fcb.oldest 1 ∧
      fcb'.flash.map List.length = fcb.flash.map List.length ∧
      FcbInv cfg fcb' (if log = [] then [[]] else log) (base + 1) ∧
      (log ≠ [] → fcb'.past = fcb.flash :: fcb.past) := by
  have hpos := h.area.pos
  have ho := h.area.oldest
  have hle := h.area.length
  rw [length_cons] at hle
  have hnext : fcbGetnextSector fcb.flash fcb.oldest = nthSector fcb.flash.length fcb.oldest 1 := by
    have := fcbGetnextSector_nth (o := fcb.oldest) hpos 0
    rwa [nthSector_zero ho] at this
  have herase : (fcbEraseSector fcb fcb.oldest).flash.map List.length = fcb.flash.map List.length :=
    table_set length_erased
  have hactive := h.active
  rw [length_cons, Nat.add_sub_cancel] at hactive
  have hid := h.activeId
  rw [length_cons, Nat.add_sub_cancel] at hid
  by_cases hlog : log = []
  · subst hlog
    have hsame : fcb.oldest = fcb.active := by rw [hactive, length_nil, nthSector_zero ho]
    obtain ⟨hsizes, hblank⟩ := h.erase_only
    have hin : nthSector fcb.flash.length fcb.oldest 1 < (fcbEraseSector fcb fcb.oldest).flash.length := by
      rw [fcbEraseSector, length_set]
      exact nthSector_lt hpos
    have hnewId : (fcb.activeId + 1) % 2 ^ 16 = (base + 1) % 2 ^ 16 := by
      rw [hid, length_nil, add_zero, Nat.mod_add_mod]
    obtain ⟨fcb', huse, htable, hinv⟩ := useSector_fresh hsizes hblank hin hnewId
    refine ⟨{ fcb' with oldest := nthSector fcb.flash.length fcb.oldest 1 },
      by rw [fcbRotate, hnext, if_pos hsame, huse]; rfl, rfl, htable.trans herase, ?_, fun hne => absurd rfl hne⟩
    rw [if_pos rfl]
    exact hinv
  · have hother : fcb.oldest ≠ fcb.active := fun heq => by
      rw [hactive] at heq
      have := nthSector_inj hpos (show log.length < fcb.flash.length by omega) ((nthSector_zero ho).trans heq)
      exact hlog (length_eq_zero_iff.1 this.symm)
    have hlast : log.length - 1 + 1 = log.length := Nat.sub_add_cancel (List.length_pos_iff.2 hlog)
    refine ⟨{ fcbEraseSector fcb fcb.oldest with oldest := nthSector fcb.flash.length fcb.oldest 1 },
      by rw [fcbRotate, hnext, if_neg hother]; rfl, rfl, herase, ?_, fun _ => rfl⟩
    rw [if_neg hlog]
    refine ⟨h.area.rotate hlog, ?_, ?_, ?_⟩
    · change fcb.active = nthSector (fcb.flash.set _ _).length _ _
      rw [length_set, nthSector_rotate, hlast, hactive]
    · have hoff := h.elemOff
      rw [length_cons, Nat.add_sub_cancel, ← hlast, getD_cons_succ] at hoff
      exact hoff
    · change fcb.activeId = _
      rw [hid]
      congr 1
      omega

end

end Zephyr
