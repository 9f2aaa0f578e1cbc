import Mathlib.Algebra.Ring.Nat
import Zephyr.Lib.Flash
/-!
# The flash circular buffer (subsys/fs/fcb)

The mutex is not modelled: the calls come one after the other. A loop that does not end is `none`. The flash works:
a read or write fails only for its bounds, and a write does not look at the alignment. A call that fails returns no
new state.
-/
namespace Zephyr

open Flash

structure FcbCfg where
  magic : UInt32
  version : UInt8
  scratchCnt : Nat
  align : Nat
  maxLen : Nat
deriving DecidableEq

structure Fcb where
  flash : List (List UInt8)
  past : List (List (List UInt8))
  oldest : Nat
  active : Nat
  elemOff : Nat
  activeId : Nat
deriving DecidableEq

structure FcbEntry where
  sector : Nat
  elemOff : Nat
  dataOff : Nat
  dataLen : Nat
deriving DecidableEq

def fcbErrArgs : ℤ := -1
def fcbErrFlash : ℤ := -2
def fcbErrNovar : ℤ := -3
def fcbErrNospace : ℤ := -4
def fcbErrCrc : ℤ := -6
def fcbErrMagic : ℤ := -7

def crc8CcittSmallTable : List UInt8 :=
  [0x00, 0x07, 0x0e, 0x09, 0x1c, 0x1b, 0x12, 0x15, 0x38, 0x3f, 0x36, 0x31, 0x24, 0x23, 0x2a, 0x2d]

def crc8Step (val byte : UInt8) : UInt8 :=
  let val := val ^^^ byte
  let val := (val <<< 4) ^^^ crc8CcittSmallTable.getD (val >>> 4).toNat 0
  (val <<< 4) ^^^ crc8CcittSmallTable.getD (val >>> 4).toNat 0

def crc8Ccitt (val : UInt8) (buf : List UInt8) : UInt8 := buf.foldl crc8Step val

def crc8CcittInitialValue : UInt8 := 0xff

/-- `sizeof(struct fcb_disk_area)` -/
def fcbDiskArea : Nat := 8

def fcbLenInFlash (cfg : FcbCfg) (len : Nat) : Nat :=
  if cfg.align ≤ 1 then len else len + (cfg.align - 1) - (len + (cfg.align - 1) &&& cfg.align - 1)

def fcbPutLen (cfg : FcbCfg) (len : Nat) : Option (List UInt8) :=
  if len < 0x80 then some [UInt8.ofNat len]
  else if len < cfg.maxLen then some [UInt8.ofNat (len &&& 0x7f ||| 0x80), UInt8.ofNat (len >>> 7)]
  else none

def fcbGetLen (b₀ b₁ : UInt8) : Option (Nat × Nat) :=
  if b₀ &&& 0x80 ≠ 0 then
    if b₀ = 0xff ∧ b₁ = 0xff then none else some (2, (b₀ &&& 0x7f).toNat ||| b₁.toNat <<< 7)
  else some (1, b₀.toNat)

/-! ## The flash -/

def sectorSize (flash : List (List UInt8)) (sector : Nat) : Nat := (flash.getD sector []).length

def fcbFlashRead (flash : List (List UInt8)) (sector off len : Nat) : Option (List UInt8) :=
  if off + len > sectorSize flash sector then none else some (((flash.getD sector []).drop off).take len)

def fcbFlashWrite (fcb : Fcb) (sector off : Nat) (src : List UInt8) : Option Fcb :=
  if off + src.length > sectorSize fcb.flash sector then none
  else some { fcb with
    flash := fcb.flash.set sector (program (fcb.flash.getD sector []) off src), past := fcb.flash :: fcb.past }

def fcbEraseSector (fcb : Fcb) (sector : Nat) : Fcb :=
  { fcb with flash := fcb.flash.set sector (erased (sectorSize fcb.flash sector)), past := fcb.flash :: fcb.past }

def le32 (v : UInt32) : List UInt8 := [v.toUInt8, (v >>> 8).toUInt8, (v >>> 16).toUInt8, (v >>> 24).toUInt8]

def le16 (v : Nat) : List UInt8 := [UInt8.ofNat v, UInt8.ofNat (v / 256)]

def fcbDiskHdr (cfg : FcbCfg) (id : Nat) : List UInt8 := le32 cfg.magic ++ [cfg.version, 0xff] ++ le16 id

def fcbSectorHdrInit (cfg : FcbCfg) (fcb : Fcb) (sector id : Nat) : Except ℤ Fcb :=
  match fcbFlashWrite fcb sector 0 (fcbDiskHdr cfg id) with
  | none => .error fcbErrFlash
  | some fcb => .ok fcb

/-- `none` is a sector that is not in use. -/
def fcbSectorHdrRead (cfg : FcbCfg) (flash : List (List UInt8)) (sector : Nat) : Except ℤ (Option Nat) :=
  match fcbFlashRead flash sector 0 fcbDiskArea with
  | none => .error fcbErrFlash
  | some fda =>
    if fda.take 4 = le32 0xffffffff then .ok none
    else if fda.take 4 ≠ le32 cfg.magic then .error fcbErrMagic
    else .ok (some ((fda.getD 6 0).toNat + (fda.getD 7 0).toNat * 256))

/-! ## Entries -/

/-- The places of the data and its checksum. -/
def fcbElemCrc8 (cfg : FcbCfg) (flash : List (List UInt8)) (loc : FcbEntry) : Except ℤ (FcbEntry × UInt8) :=
  if loc.elemOff + 2 > sectorSize flash loc.sector then .error fcbErrNovar
  else
    match fcbFlashRead flash loc.sector loc.elemOff 2 with
    | none => .error fcbErrFlash
    | some tmp =>
      match fcbGetLen (tmp.getD 0 0) (tmp.getD 1 0) with
      | none => .error fcbErrNovar
      | some (cnt, len) =>
        let loc := { loc with dataOff := loc.elemOff + fcbLenInFlash cfg cnt, dataLen := len }
        let crc := crc8Ccitt crc8CcittInitialValue (tmp.take cnt)
        if len = 0 then .ok (loc, crc)
        else
          match fcbFlashRead flash loc.sector loc.dataOff len with
          | none => .error fcbErrFlash
          | some data => .ok (loc, crc8Ccitt crc data)

/-- The location as `fcb_elem_crc8` leaves it, also when it fails. -/
def FcbEntry.fill (cfg : FcbCfg) (flash : List (List UInt8)) (loc : FcbEntry) : FcbEntry :=
  match fcbFlashRead flash loc.sector loc.elemOff 2 with
  | none => loc
  | some tmp =>
    match fcbGetLen (tmp.getD 0 0) (tmp.getD 1 0) with
    | none => loc
    | some (cnt, len) => { loc with dataOff := loc.elemOff + fcbLenInFlash cfg cnt, dataLen := len }

/-- With the location. -/
def fcbElemInfo (cfg : FcbCfg) (flash : List (List UInt8)) (loc : FcbEntry) : ℤ × FcbEntry :=
  match fcbElemCrc8 cfg flash loc with
  | .error rc => (rc, loc.fill cfg flash)
  | .ok (loc, crc) =>
    match fcbFlashRead flash loc.sector (loc.dataOff + fcbLenInFlash cfg loc.dataLen) 1 with
    | none => (fcbErrFlash, loc)
    | some flCrc => if flCrc.getD 0 0 ≠ crc then (fcbErrCrc, loc) else (0, loc)

/-- Behind an entry. -/
def FcbEntry.skip (cfg : FcbCfg) (loc : FcbEntry) : FcbEntry :=
  { loc with elemOff := loc.dataOff + fcbLenInFlash cfg loc.dataLen + fcbLenInFlash cfg 1 }

/-- The loop of fcb_getnext_in_sector (fcb_getnext.c:20). -/
def inSectorLoop (cfg : FcbCfg) (flash : List (List UInt8)) : Nat → FcbEntry → Option (ℤ × FcbEntry)
  | 0, _ => none
  | fuel + 1, loc =>
    let (rc, loc) := fcbElemInfo cfg flash (loc.skip cfg)
    if rc = fcbErrCrc then inSectorLoop cfg flash fuel loc else some (rc, loc)

def fcbGetnextInSector (cfg : FcbCfg) (flash : List (List UInt8)) (loc : FcbEntry) : Option (ℤ × FcbEntry) :=
  let (rc, loc) := fcbElemInfo cfg flash loc
  if rc = 0 ∨ rc = fcbErrCrc then inSectorLoop cfg flash (sectorSize flash loc.sector + 1) loc else some (rc, loc)

def fcbGetnextSector (flash : List (List UInt8)) (sector : Nat) : Nat :=
    if flash.length ≤ sector + 1 then 0 else sector + 1

/-- With a wrong checksum a round begins at the top; with any other error, at the label `next_sector`. -/
def getnextLoop (cfg : FcbCfg) (fcb : Fcb) : Nat → ℤ → FcbEntry → Option (ℤ × FcbEntry)
  | 0, _, _ => none
  | fuel + 1, rc, loc =>
    if rc = fcbErrCrc then do
      let (rc, loc) ← fcbGetnextInSector cfg fcb.flash loc
      if rc = 0 then some (0, loc) else getnextLoop cfg fcb fuel rc loc
    else if loc.sector = fcb.active then some (fcbErrNovar, loc)
    else
      let (rc, loc) := fcbElemInfo cfg fcb.flash
            { loc with sector := fcbGetnextSector fcb.flash loc.sector, elemOff := fcbDiskArea }
      if rc = 0 then some (0, loc) else getnextLoop cfg fcb fuel rc loc

def fcbGetnextNolock (cfg : FcbCfg) (fcb : Fcb) (loc : Option FcbEntry) : Option (ℤ × FcbEntry) :=
  let fuel := 2 * fcb.flash.length + 1
  let loc := loc.getD ⟨fcb.oldest, 0, 0, 0⟩
  if loc.elemOff = 0 then
    let (rc, loc) := fcbElemInfo cfg fcb.flash { loc with elemOff := fcbDiskArea }
    if rc = 0 then some (0, loc) else getnextLoop cfg fcb fuel rc loc
  else do
    let (rc, loc) ← fcbGetnextInSector cfg fcb.flash loc
    if rc = 0 then some (0, loc)
    else if rc = fcbErrNovar ∨ rc = fcbErrCrc then getnextLoop cfg fcb fuel rc loc
    else some (0, loc)

/-- From a location on, as long as `goOn` holds of the result. -/
def visit (cfg : FcbCfg) (fcb : Fcb) (goOn : ℤ → Bool) : Nat → Option FcbEntry → Option (List FcbEntry)
  | 0, _ => none
  | fuel + 1, loc => do
    let (rc, loc) ← fcbGetnextNolock cfg fcb loc
    if goOn rc then (visit cfg fcb goOn fuel (some loc)).map (loc :: ·) else some []

/-- No sector has more entries than bytes. -/
def walkFuel (flash : List (List UInt8)) : Nat := flash.length * (flash.map List.length).sum + 1

def fcbWalk (cfg : FcbCfg) (fcb : Fcb) : Option (List FcbEntry) :=
    visit cfg fcb (· ≠ fcbErrNovar) (walkFuel fcb.flash) none

/-- A caller that goes on while `fcb_getnext` returns 0, from an empty location. -/
def fcbGetnextAll (cfg : FcbCfg) (fcb : Fcb) : Option (List FcbEntry) := visit cfg fcb (· = 0) (walkFuel fcb.flash) none

/-! ## Appending and rotating -/

/-- The oldest sector is among the `cnt + 1` behind `cur`. -/
def meetsOldest (fcb : Fcb) : Nat → Nat → Bool
  | 0, cur => fcbGetnextSector fcb.flash cur = fcb.oldest
  | cnt + 1, cur => fcbGetnextSector fcb.flash cur = fcb.oldest || meetsOldest fcb cnt (fcbGetnextSector fcb.flash cur)

def fcbNewSector (fcb : Fcb) (cnt : Nat) : Option Nat :=
  if meetsOldest fcb cnt fcb.active then none else some (fcbGetnextSector fcb.flash fcb.active)

/-- The header is written, and the sector becomes the active one. -/
def useSector (cfg : FcbCfg) (fcb : Fcb) (sector : Nat) : Except ℤ Fcb := do
  let fcb ← fcbSectorHdrInit cfg fcb sector ((fcb.activeId + 1) % 2 ^ 16)
  pure { fcb with active := sector, elemOff := fcbDiskArea, activeId := (fcb.activeId + 1) % 2 ^ 16 }

def fcbAppendToScratch (cfg : FcbCfg) (fcb : Fcb) : Except ℤ Fcb :=
  match fcbNewSector fcb 0 with
  | none => .error fcbErrNospace
  | some sector => useSector cfg fcb sector

/-- A sector with room for `size` bytes (fcb_append.c:80-92). -/
def makeRoom (cfg : FcbCfg) (fcb : Fcb) (size : Nat) : Except ℤ Fcb :=
  if fcb.elemOff + size > sectorSize fcb.flash fcb.active then
    match fcbNewSector fcb cfg.scratchCnt with
    | none => .error fcbErrNospace
    | some sector => if sectorSize fcb.flash sector < fcbDiskArea + size then
        .error fcbErrNospace else useSector cfg fcb sector
  else .ok fcb

/-- The caller's location comes back without a new `dataLen`: that is left to `fcb_append_finish`. -/
def fcbAppend (cfg : FcbCfg) (junk : Nat → UInt8) (fcb : Fcb) (len : Nat) (appendLoc : FcbEntry) :
    Except ℤ (Fcb × FcbEntry) :=
  match fcbPutLen cfg len with
  | none => .error fcbErrArgs
  | some tmp => do
    let cnt := fcbLenInFlash cfg tmp.length
    let size := fcbLenInFlash cfg len + fcbLenInFlash cfg 1
    let fcb ← makeRoom cfg fcb (size + cnt)
    match fcbFlashWrite fcb fcb.active fcb.elemOff (tmp ++ (List.range (cnt - tmp.length)).map junk) with
    | none => .error fcbErrFlash
    | some fcb' =>
      pure ({ fcb' with elemOff := fcb.elemOff + cnt + size },
        { appendLoc with sector := fcb.active, elemOff := fcb.elemOff, dataOff := fcb.elemOff + cnt })

def fcbAppendFinish (cfg : FcbCfg) (fcb : Fcb) (loc : FcbEntry) : Except ℤ (Fcb × FcbEntry) := do
  let (loc, crc) ← fcbElemCrc8 cfg fcb.flash loc
  match fcbFlashWrite fcb loc.sector (loc.dataOff + fcbLenInFlash cfg loc.dataLen) (crc :: erased (cfg.align - 1)) with
  | none => .error fcbErrFlash
  | some fcb => .ok (fcb, loc)

def fcbRotate (cfg : FcbCfg) (fcb : Fcb) : Except ℤ Fcb := do
  let next := fcbGetnextSector fcb.flash fcb.oldest
  let fcb' := fcbEraseSector fcb fcb.oldest
  let fcb' ← if fcb.oldest = fcb.active then useSector cfg fcb' next else pure fcb'
  pure { fcb' with oldest := next }

/-! ## Restart -/

/-- A difference of `int`s: nothing wraps here. -/
def fcbIdGt (a b : Nat) : Bool := (a : ℤ).bmod (2 ^ 16) - (b : ℤ).bmod (2 ^ 16) > 0

/-- The oldest and the newest sector so far, with their ids. -/
structure Scan where
  oldest : Nat
  oldestSector : Nat
  newest : Nat
  newestSector : Nat
deriving DecidableEq

def scanSector (scan : Option Scan) (sector id : Nat) : Scan :=
  match scan with
  | none => ⟨id, sector, id, sector⟩
  | some s =>
    if fcbIdGt id s.newest then { s with newest := id, newestSector := sector }
    else if fcbIdGt s.oldest id then { s with oldest := id, oldestSector := sector }
    else s

def scanSectors (cfg : FcbCfg) (flash : List (List UInt8)) (scan : Option Scan) : List Nat → Except ℤ (Option Scan)
  | [] => .ok scan
  | sector :: sectors => do
    match ← fcbSectorHdrRead cfg flash sector with
    | none => scanSectors cfg flash scan sectors
    | some id => scanSectors cfg flash (some (scanSector scan sector id)) sectors

/-- The loop that looks for the end of the active sector (fcb.c:154). -/
def endLoop (cfg : FcbCfg) (flash : List (List UInt8)) : Nat → FcbEntry → Option (ℤ × FcbEntry)
  | 0, _ => none
  | fuel + 1, loc => do
    let (rc, loc) ← fcbGetnextInSector cfg flash loc
    if rc = fcbErrNovar then some (0, loc)
    else if rc ≠ 0 then some (rc, loc)
    else endLoop cfg flash fuel loc

def fcbInitSectors (cfg : FcbCfg) (flash : List (List UInt8)) : Except ℤ Fcb := do
  match ← scanSectors cfg flash none (List.range flash.length) with
  | none => fcbSectorHdrInit cfg ⟨flash, [], 0, 0, fcbDiskArea, 0⟩ 0 0
  | some s => pure ⟨flash, [], s.oldestSector, s.newestSector, fcbDiskArea, s.newest⟩

/-- `none` is a loop that does not end. -/
def fcbInit (cfg : FcbCfg) (flash : List (List UInt8)) : Option (Except ℤ Fcb) :=
  if flash.length < cfg.scratchCnt + 1 ∨ cfg.align = 0 then some (.error fcbErrArgs)
  else
    match fcbInitSectors cfg flash with
    | .error rc => some (.error rc)
    | .ok fcb => do
      let (rc, loc) ← endLoop cfg fcb.flash (sectorSize fcb.flash fcb.active + 1) ⟨fcb.active, fcb.elemOff, 0, 0⟩
      if rc = 0 then some (.ok { fcb with elemOff := loc.elemOff }) else some (.error rc)

/-- The loop of fcb_free_sector_cnt; `i` sectors have been passed. -/
def freeSectorLoop (fcb : Fcb) : Nat → Nat → Nat → Nat
  | 0, _, i => i
  | left + 1, fa, i =>
    let fa := fcbGetnextSector fcb.flash fa
    if fa = fcb.oldest then i else freeSectorLoop fcb left fa (i + 1)

def fcbFreeSectorCnt (fcb : Fcb) : Nat := freeSectorLoop fcb fcb.flash.length fcb.active 0

end Zephyr
