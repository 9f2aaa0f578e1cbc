import Zephyr.Fcb.Ops
/-!
# Restart (subsys/fs/fcb/fcb.c:91)

`fcb_init` compares the ids of the sectors in the order of the table. It takes them as signed numbers and subtracts
without wrapping, so that the ids in use must not go from 0x7fff to 0x8000 (`InOrder`); from 0xffff to 0 they may.
-/
namespace Zephyr

open Flash Chunks List

/-- The id 0x7fff is that of no sector in use but the last. -/
def InOrder (log : List (List Elem)) (base : Nat) : Prop := ∀ k, k + 1 < log.length → (base + k) % 2 ^ 16 ≠ 0x7fff

variable {k : Nat} {seen : Nat → Prop} {scan : Option Scan}

section

variable {cfg : FcbCfg} {fcb : Fcb} {flash : List (List UInt8)} {log : List (List Elem)}
    {base o sector n : Nat} {a : List UInt8} {e : Elem} {es : List Elem}

/-! ## The end of the active sector -/

/-- The induction is on the number of entries behind; a round passes at least one. -/
theorem endLoop_elem (hmax : cfg.maxLen ≤ 0x7fff) {fuel : Nat} (hfuel : es.length + 1 ≤ fuel)
    (he : e.Fits cfg) (hes : ∀ x ∈ es, x.Fits cfg)
    (h : flash.getD sector [] = a ++ (e.bytes ++ (content Elem.bytes es ++ erased n))) (d l : Nat) :
    ∃ loc, endLoop cfg flash fuel ⟨sector, a.length, d, l⟩ = some (0, loc) ∧
    loc.elemOff = a.length + e.bytes.length + (content Elem.bytes es).length := by
  induction fuel generalizing a e es d l with
  | zero => omega
  | succ fuel ih =>
    obtain ⟨⟨rc, loc⟩, hr, hin⟩ := fcbGetnextInSector_elem hmax he hes h d l
    rw [endLoop, hr]
    unfold InSector at hin
    cases hv : visible cfg sector (a.length + e.bytes.length) es with
    | nil =>
      rw [hv] at hin
      obtain ⟨hrc, -, hoff⟩ := hin
      exact ⟨loc, by simp only [Option.bind_eq_bind, Option.bind_some, if_pos hrc], hoff⟩
    | cons l' rest =>
      rw [hv] at hin
      obtain ⟨hr, passed, x, xs, rfl, hloc, -⟩ := hin
      obtain ⟨rfl, rfl⟩ := Prod.mk.inj hr
      have hlen : (a ++ e.bytes ++ content Elem.bytes passed).length =
        a.length + e.bytes.length + (content Elem.bytes passed).length := by
        simp only [length_append]
      have hflash : flash.getD sector [] = (a ++ e.bytes ++ content Elem.bytes passed) ++
        (x.bytes ++ (content Elem.bytes xs ++ erased n)) := by
        rw [h]
        simp only [content_append, content_cons, append_assoc]
      obtain ⟨loc', hend, hoff⟩ := ih (by rw [length_append, length_cons] at hfuel; omega) (hes x (by simp))
        (fun y hy => hes y (by simp [hy])) hflash
        (a.length + e.bytes.length + (content Elem.bytes passed).length + fcbLenInFlash cfg x.lenBytes.length) x.len
      refine ⟨loc', ?_, ?_⟩
      · rw [hlen] at hend
        simp only [Option.bind_eq_bind, Option.bind_some, hloc]
        rw [if_neg (by decide), if_neg (by decide)]
        exact hend
      · rw [hoff, hlen]
        simp only [content_append, content_cons, length_append]
        omega

theorem endLoop_holds (hmax : cfg.maxLen ≤ 0x7fff) (h : SectorHolds cfg flash sector es) (d l : Nat) :
    ∃ loc, endLoop cfg flash (sectorSize flash sector + 1) ⟨sector, fcbDiskArea, d, l⟩ = some (0, loc) ∧
      loc.elemOff = fcbDiskArea + (content Elem.bytes es).length := by
  obtain ⟨hdr, m, hhdr, hflash, hfits⟩ := h
  cases es with
  | nil =>
    rw [content_nil, nil_append] at hflash
    refine ⟨⟨sector, fcbDiskArea, d, l⟩, ?_, rfl⟩
    rw [endLoop, fcbGetnextInSector, ← hhdr, fcbElemInfo_end hflash]
    rfl
  | cons e es =>
    have hsize : es.length + 1 ≤ sectorSize flash sector + 1 := by
      have := length_le_content hfits
      rw [sectorSize, hflash, length_append, length_append]
      rw [length_cons] at this
      omega
    rw [content_cons, append_assoc] at hflash
    obtain ⟨loc, hend, hoff⟩ := endLoop_elem hmax hsize (hfits e mem_cons_self)
      (fun x hx => hfits x (mem_cons_of_mem _ hx)) hflash d l
    rw [hhdr] at hend hoff
    exact ⟨loc, hend, by rw [hoff, content_cons, length_append, add_assoc]⟩

/-! ## The headers -/

theorem le32_ne {m : UInt32} (h : m ≠ 0xffffffff) : le32 m ≠ le32 0xffffffff := by
  intro heq
  refine h (UInt32.toNat_inj.1 ?_)
  have hlt := m.toNat_lt
  have hbyte : ∀ k v : UInt32, (v >>> k).toUInt8.toNat = v.toNat >>> (k.toNat % 32) % 256 := fun k v => by
    rw [UInt32.toNat_toUInt8, UInt32.toNat_shiftRight]
  simp only [le32, List.cons.injEq, and_true] at heq
  obtain ⟨h₀, h₁, h₂, h₃⟩ := heq
  have h₀ := congrArg UInt8.toNat h₀
  have h₁ := congrArg UInt8.toNat h₁
  have h₂ := congrArg UInt8.toNat h₂
  have h₃ := congrArg UInt8.toNat h₃
  rw [hbyte] at h₁ h₂ h₃
  rw [UInt32.toNat_toUInt8] at h₀
  simp only [Nat.shiftRight_eq_div_pow] at h₁ h₂ h₃
  change m.toNat % 256 = 255 at h₀
  change m.toNat / 256 % 256 = 255 at h₁
  change m.toNat / 65536 % 256 = 255 at h₂
  change m.toNat / 16777216 % 256 = 255 at h₃
  change m.toNat = 4294967295
  omega

/-- **The id of a sector in use** is read back. -/
theorem fcbSectorHdrRead_used {id : Nat} (hmagic : cfg.magic ≠ 0xffffffff) (hid : id < 2 ^ 16)
    (h : HoldsId cfg (flash.getD sector []) id es) :
    fcbSectorHdrRead cfg flash sector = .ok (some id) := by
  obtain ⟨n, hn⟩ := h
  have hread : fcbFlashRead flash sector 0 fcbDiskArea = some (fcbDiskHdr cfg id) := fcbFlashRead_part (a := []) hn rfl
  have htake : (fcbDiskHdr cfg id).take 4 = le32 cfg.magic := rfl
  rw [fcbSectorHdrRead, hread]
  simp only [htake, if_neg (le32_ne hmagic), not_true_eq_false, if_false, ne_eq]
  change Except.ok (some ((UInt8.ofNat id).toNat + (UInt8.ofNat (id / 256)).toNat * 256)) = _
  rw [UInt8.toNat_ofNat', UInt8.toNat_ofNat']
  congr 2
  omega

theorem fcbSectorHdrRead_blank (h : Blank (flash.getD sector [])) (hsize : fcbDiskArea ≤ sectorSize flash sector) :
    fcbSectorHdrRead cfg flash sector = .ok none := by
  have hsplit : flash.getD sector [] = [] ++ (erased fcbDiskArea ++
    erased (sectorSize flash sector - fcbDiskArea)) := by
    rw [erased_append, Nat.add_sub_cancel' hsize]
    exact h
  have hread : fcbFlashRead flash sector 0 fcbDiskArea = some (erased fcbDiskArea) :=
    fcbFlashRead_part (a := []) hsplit rfl
  rw [fcbSectorHdrRead, hread]
  rfl

/-! ## The order of the ids -/

theorem bmod_succ {m : Nat} (h : m % 2 ^ 16 ≠ 0x7fff) :
    (((m + 1) % 2 ^ 16 : Nat) : ℤ).bmod (2 ^ 16) = ((m % 2 ^ 16 : Nat) : ℤ).bmod (2 ^ 16) + 1 := by
  simp only [Int.bmod_def]
  split_ifs <;> omega

/-- **The signed ids go up** by one from sector to sector. -/
theorem InOrder.bmod_eq (h : InOrder log base) (hk : k < log.length) :
    (((base + k) % 2 ^ 16 : Nat) : ℤ).bmod (2 ^ 16) = ((base % 2 ^ 16 : Nat) : ℤ).bmod (2 ^ 16) + k := by
  induction k with
  | zero => simp
  | succ k ih =>
    rw [← add_assoc, bmod_succ (h k hk), ih (by omega), Int.add_assoc]
    rfl

theorem InOrder.fcbIdGt_iff (h : InOrder log base) {j : Nat} (hj : j < log.length) (hk : k < log.length) :
    fcbIdGt ((base + j) % 2 ^ 16) ((base + k) % 2 ^ 16) = true ↔ k < j := by
  unfold fcbIdGt
  rw [decide_eq_true_iff, h.bmod_eq hj, h.bmod_eq hk, gt_iff_lt, Int.sub_pos, Int.add_lt_add_iff_left, Int.ofNat_lt]

/-- The scan has seen the sectors of `seen`: the first and the last of them in the log are the oldest and the newest. -/
def ScanIs (flash : List (List UInt8)) (o : Nat) (log : List (List Elem)) (base : Nat) (seen : Nat → Prop) :
    Option Scan → Prop
  | none => ∀ k < log.length, ¬ seen k
  | some s => ∃ lo hi, seen lo ∧ seen hi ∧ lo < log.length ∧ hi < log.length ∧
      (∀ k < log.length, seen k → lo ≤ k ∧ k ≤ hi) ∧
      s = ⟨(base + lo) % 2 ^ 16, nthSector flash.length o lo, (base + hi) % 2 ^ 16, nthSector flash.length o hi⟩

theorem ScanIs.add (hord : InOrder log base) (h : ScanIs flash o log base seen scan) (hk : k < log.length) :
    ScanIs flash o log base (fun j => seen j ∨ j = k)
    (some (scanSector scan (nthSector flash.length o k) ((base + k) % 2 ^ 16))) := by
  cases scan with
  | none =>
    refine ⟨k, k, .inr rfl, .inr rfl, hk, hk, ?_, rfl⟩
    rintro j hj (hseen | rfl)
    · exact absurd hseen (h j hj)
    · exact ⟨le_refl _, le_refl _⟩
  | some s =>
    obtain ⟨lo, hi, hlo, hhi, hloLt, hhiLt, hall, rfl⟩ := h
    have hle := hall lo hloLt hlo
    simp only [scanSector, hord.fcbIdGt_iff hk hhiLt, hord.fcbIdGt_iff hloLt hk]
    split_ifs with hnew hold
    · refine ⟨lo, k, .inl hlo, .inr rfl, hloLt, hk, ?_, rfl⟩
      rintro j hj (hseen | rfl)
      · have := hall j hj hseen
        omega
      · omega
    · refine ⟨k, hi, .inr rfl, .inl hhi, hk, hhiLt, ?_, rfl⟩
      rintro j hj (hseen | rfl)
      · have := hall j hj hseen
        omega
      · omega
    · refine ⟨lo, hi, .inl hlo, .inl hhi, hloLt, hhiLt, ?_, rfl⟩
      rintro j hj (hseen | rfl)
      · exact hall j hj hseen
      · omega

theorem ScanIs.congr {seen' : Nat → Prop} (h : ScanIs flash o log base seen scan)
    (hiff : ∀ k < log.length, seen k ↔ seen' k) :
    ScanIs flash o log base seen' scan := by
  cases scan with
  | none => exact fun k hk hseen => h k hk ((hiff k hk).2 hseen)
  | some s =>
    obtain ⟨lo, hi, hlo, hhi, hloLt, hhiLt, hall, heq⟩ := h
    exact ⟨lo, hi, (hiff lo hloLt).1 hlo, (hiff hi hhiLt).1 hhi, hloLt, hhiLt, fun k hk hseen =>
      hall k hk ((hiff k hk).2 hseen), heq⟩

/-- **The scan of the table.** The induction is on the sectors to come. -/
theorem scanSectors_area (hmagic : cfg.magic ≠ 0xffffffff) (h : Area cfg flash o log base)
    (hord : InOrder log base) {sectors : List Nat}
    (hin : ∀ i ∈ sectors, i < flash.length) (hscan : ScanIs flash o log base seen scan) :
    ∃ scan', scanSectors cfg flash scan sectors = .ok scan' ∧
      ScanIs flash o log base (fun k => seen k ∨ nthSector flash.length o k ∈ sectors) scan' := by
  induction sectors generalizing seen scan with
  | nil => exact ⟨scan, rfl, hscan.congr fun k hk => by simp⟩
  | cons i sectors ih =>
    have hi := hin i mem_cons_self
    have hrest : ∀ j ∈ sectors, j < flash.length := fun j hj => hin j (mem_cons_of_mem _ hj)
    have hlen := h.length
    obtain ⟨k, hk, rfl⟩ := nthSector_surj h.oldest hi
    by_cases hused : k < log.length
    · have hread := fcbSectorHdrRead_used hmagic (Nat.mod_lt _ (by decide)) (h.used k hused)
      obtain ⟨scan', hrun, hres⟩ := ih hrest (hscan.add hord hused)
      refine ⟨scan', by rw [scanSectors, hread]; exact hrun, hres.congr fun j hj => ?_⟩
      have : nthSector flash.length o j = nthSector flash.length o k ↔ j = k :=
        ⟨fun heq => nthSector_inj (by omega) hk heq, fun heq => by rw [heq]⟩
      rw [mem_cons, this, or_assoc]
    · have hread : fcbSectorHdrRead cfg flash (nthSector flash.length o k) = .ok none :=
        fcbSectorHdrRead_blank (h.free k (Nat.le_of_not_lt hused) hk) (h.size hi)
      obtain ⟨scan', hrun, hres⟩ := ih hrest hscan
      refine ⟨scan', by rw [scanSectors, hread]; exact hrun, hres.congr fun j hj => ?_⟩
      have : ¬ nthSector flash.length o j = nthSector flash.length o k := fun heq => by
        have := nthSector_inj (by omega) hk heq
        omega
      rw [mem_cons, or_iff_right this]

/-- **`fcb_init` (fcb.c:91)** finds the state in RAM from the flash. -/
theorem fcbInit_inv (hmax : cfg.maxLen ≤ 0x7fff) (hmagic : cfg.magic ≠ 0xffffffff) (halign : cfg.align ≠ 0)
    (hcnt : cfg.scratchCnt < fcb.flash.length) (h : FcbInv cfg fcb log base) (hord : InOrder log base) :
    fcbInit cfg fcb.flash = some (.ok { fcb with past := [] }) := by
  have hpos := h.area.length_pos
  have hlen := h.area.length
  have hstart : ScanIs fcb.flash fcb.oldest log base (fun _ => False) none := fun _ _ hf => hf
  obtain ⟨scan, hscan, hres⟩ := scanSectors_area hmagic h.area hord (fun i hi => mem_range.1 hi) hstart
  have hsome : scan = some ⟨base % 2 ^ 16, fcb.oldest, fcb.activeId, fcb.active⟩ := by
    have hall : ∀ k < log.length, False ∨ nthSector fcb.flash.length fcb.oldest k ∈ List.range fcb.flash.length :=
      fun k _ => .inr (mem_range.2 (nthSector_lt h.area.pos))
    cases scan with
    | none => exact absurd (hall 0 hpos) (hres 0 hpos)
    | some s =>
      obtain ⟨lo, hi, -, -, hloLt, hhiLt, hbounds, rfl⟩ := hres
      have hfirst := hbounds 0 hpos (hall 0 hpos)
      have hlast := hbounds (log.length - 1) (by omega) (hall _ (by omega))
      obtain rfl : lo = 0 := by omega
      obtain rfl : hi = log.length - 1 := by omega
      rw [h.activeId, h.active, nthSector_zero h.area.oldest]
      rfl
  have hsectors : fcbInitSectors cfg fcb.flash = .ok ⟨fcb.flash, [], fcb.oldest, fcb.active, fcbDiskArea,
    fcb.activeId⟩ := by
    rw [fcbInitSectors, hscan, hsome]
    rfl
  have hholds : SectorHolds cfg fcb.flash fcb.active (log.getD (log.length - 1) []) := by
    rw [h.active]
    exact h.area.holds (by omega)
  obtain ⟨loc, hend, hoff⟩ := endLoop_holds hmax hholds 0 0
  rw [fcbInit, if_neg (by omega), hsectors]
  simp only [hend, Option.bind_eq_bind, Option.bind_some, if_true]
  rw [hoff, ← h.elemOff]

/-! ## Erased flash -/

theorem scanSectors_blank {sectors : List Nat} (hblank : ∀ i ∈ sectors, Blank (flash.getD i []))
    (h : scanSectors cfg flash none sectors = .ok scan) :
    scan = none ∧ ∀ i ∈ sectors, fcbDiskArea ≤ sectorSize flash i := by
  induction sectors with
  | nil =>
    cases h
    exact ⟨rfl, fun i hi => absurd hi not_mem_nil⟩
  | cons i sectors ih =>
    by_cases hsize : fcbDiskArea ≤ sectorSize flash i
    · rw [scanSectors, fcbSectorHdrRead_blank (hblank i mem_cons_self) hsize] at h
      obtain ⟨hnone, hsizes⟩ := ih (fun j hj => hblank j (mem_cons_of_mem _ hj)) h
      refine ⟨hnone, fun j hj => ?_⟩
      rcases mem_cons.1 hj with rfl | hj
      · exact hsize
      · exact hsizes j hj
    · rw [scanSectors, fcbSectorHdrRead, fcbFlashRead, if_pos (by omega)] at h
      cases h

/-- **The buffer begins** with one sector in use, which is empty. A sector without room for a header is refused. -/
theorem fcbInit_erased (hmax : cfg.maxLen ≤ 0x7fff) (hblank : ∀ s ∈ flash, Blank s)
    (h : fcbInit cfg flash = some (.ok fcb)) :
    FcbInv cfg fcb [[]] 0 ∧ fcb.oldest = 0 ∧ fcb.flash.map List.length = flash.map List.length ∧
    cfg.align ≠ 0 ∧ cfg.scratchCnt < flash.length := by
  have hargs : ¬ (flash.length < cfg.scratchCnt + 1 ∨ cfg.align = 0) := fun hbad => by
    rw [fcbInit, if_pos hbad] at h
    cases h
  obtain ⟨hlen, halign⟩ := not_or.1 hargs
  rw [fcbInit, if_neg hargs] at h
  have hpos : 0 < flash.length := by omega
  have hget : ∀ j, j < flash.length → Blank (flash.getD j []) := fun j hj => by
    rw [getD_eq_getElem _ _ hj]
    exact hblank _ (getElem_mem hj)
  cases hscan : scanSectors cfg flash none (List.range flash.length) with
  | error rc =>
    have hsectors : fcbInitSectors cfg flash = .error rc := by
      rw [fcbInitSectors, hscan]
      rfl
    rw [hsectors] at h
    cases h
  | ok scan =>
    obtain ⟨rfl, hsizes⟩ := scanSectors_blank (fun i hi => hget i (mem_range.1 hi)) hscan
    have hsize : fcbDiskArea ≤ sectorSize flash 0 := hsizes 0 (mem_range.2 hpos)
    have hsectors : fcbInitSectors cfg flash =
        .ok (Fcb.put ⟨flash, [], 0, 0, fcbDiskArea, 0⟩ 0 (program (flash.getD 0 []) 0 (fcbDiskHdr cfg 0))) := by
      rw [fcbInitSectors, hscan]
      change fcbSectorHdrInit cfg ⟨flash, [], 0, 0, fcbDiskArea, 0⟩ 0 0 = _
      rw [fcbSectorHdrInit, fcbFlashWrite_put (by rw [zero_add]; exact hsize)]
    have hheader := length_header cfg hsize 0
    have hinv : FcbInv cfg (Fcb.put ⟨flash, [], 0, 0, fcbDiskArea, 0⟩ 0
      (program (flash.getD 0 []) 0 (fcbDiskHdr cfg 0))) [[]] 0 := by
      refine ⟨Area.fresh ?_ hpos hget (by rw [hheader]; exact hsize) ((hget 0 hpos).header hsize 0), ?_, rfl, rfl⟩
      · intro s hs
        obtain ⟨i, hi, rfl⟩ := getElem_of_mem hs
        have := hsizes i (mem_range.2 hi)
        rwa [sectorSize, getD_eq_getElem _ _ hi] at this
      · simp only [Fcb.put, length_set]
        exact (nthSector_zero hpos).symm
    have hholds : SectorHolds cfg (Fcb.put ⟨flash, [], 0, 0, fcbDiskArea, 0⟩ 0
      (program (flash.getD 0 []) 0 (fcbDiskHdr cfg 0))).flash 0 [] := by
      have := hinv.area.holds (show 0 < [([] : List Elem)].length from one_pos)
      rwa [nthSector_zero hinv.area.oldest] at this
    obtain ⟨loc, hend, hoff⟩ := endLoop_holds hmax hholds 0 0
    rw [hsectors] at h
    simp only [Fcb.put] at h hend
    simp only [hend, Option.bind_eq_bind, Option.bind_some, if_true, Option.some.injEq, Except.ok.injEq] at h
    subst h
    rw [hoff]
    exact ⟨hinv, rfl, table_set hheader, halign, by omega⟩

end

end Zephyr
