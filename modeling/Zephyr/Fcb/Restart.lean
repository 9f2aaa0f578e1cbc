import Zephyr.Fcb.Runs
/-!
# A restart of the circular buffer (subsys/fs/fcb/fcb.c:91)

`FCB_ID_GT` (fcb_priv.h:21) means to compare ids that wrap. But its difference is one of `int`s, and 0x8000 is not
greater than 0x7fff.
-/
namespace Zephyr

open Flash Chunks List

section

variable {cfg : FcbCfg} {fcb : Fcb} {flash : List (List UInt8)} {log : List (List Elem)} {base : Nat} {s : FcbSys}

theorem inOrder_of_headers (hmagic : cfg.magic ≠ 0xffffffff) {o : Nat} (h : Area cfg flash o log base)
    (hids : ∀ i < flash.length, ∀ j < flash.length, ¬ (fcbSectorHdrRead cfg flash i = .ok (some 0x7fff) ∧
      fcbSectorHdrRead cfg flash j = .ok (some 0x8000))) :
    InOrder log base := by
  intro k hk hid
  have hread : ∀ j < log.length, fcbSectorHdrRead cfg flash (nthSector flash.length o j) = .ok
    (some ((base + j) % 2 ^ 16)) := fun j hj =>
    fcbSectorHdrRead_used hmagic (Nat.mod_lt _ (by decide)) (h.used j hj)
  have hnext : (base + (k + 1)) % 2 ^ 16 = 0x8000 := by omega
  exact hids _ (nthSector_lt h.pos) _ (nthSector_lt h.pos) ⟨hid ▸ hread k (by omega), hnext ▸ hread (k + 1) hk⟩

/-- **`fcb_init` restores the state in RAM**, after every sequence of calls, unless one sector has the id 0x7fff
and one 0x8000. -/
theorem fcbInit_restores (hmax : cfg.maxLen ≤ 0x7fff) (hmagic : cfg.magic ≠ 0xffffffff)
    (hblank : ∀ s ∈ flash, s = erased s.length) (hinit : fcbInit cfg flash = some (.ok fcb)) (ops : List FcbOp)
    (hids : ∀ i < (FcbSys.run cfg ⟨fcb, []⟩ ops).fcb.flash.length,
      ∀ j < (FcbSys.run cfg ⟨fcb, []⟩ ops).fcb.flash.length,
      ¬ (fcbSectorHdrRead cfg (FcbSys.run cfg ⟨fcb, []⟩ ops).fcb.flash i = .ok (some 0x7fff) ∧
        fcbSectorHdrRead cfg (FcbSys.run cfg ⟨fcb, []⟩ ops).fcb.flash j = .ok (some 0x8000))) :
    fcbInit cfg (FcbSys.run cfg ⟨fcb, []⟩ ops).fcb.flash = some
    (.ok { (FcbSys.run cfg ⟨fcb, []⟩ ops).fcb with past := [] }) := by
  obtain ⟨log, base, h⟩ := (SysInv.start hmax hblank hinit).run hmax ops
  obtain ⟨-, -, -, halign, -⟩ := fcbInit_erased hmax hblank hinit
  exact fcbInit_inv hmax hmagic halign h.scratch h.inv (inOrder_of_headers hmagic h.inv.area hids)

/-- An entry, the data of a second one without its checksum, and a second sector. -/
theorem fcbInit_restores_unfinished :
    fcbInit twoSectorsCfg (FcbSys.run twoSectorsCfg ⟨twoSectors, []⟩
        [.append (fun _ => 0) 2 ⟨0, 0, 0, 0⟩, .write 0 0 [1, 2], .finish 0, .appendToScratch,
          .append (fun _ => 0) 1 ⟨0, 0, 0, 0⟩, .write 1 0 [3]]).fcb.flash =
      some (.ok ⟨[fcbDiskHdr twoSectorsCfg 0 ++ [2, 1, 2, 0xe6] ++ erased 12,
        fcbDiskHdr twoSectorsCfg 1 ++ [1, 3] ++ erased 14], [], 0, 1, 11, 1⟩) := by
  have h := fcbInit_restores (by decide) (by decide) (by decide) fcbInit_twoSectors
    [.append (fun _ => 0) 2 ⟨0, 0, 0, 0⟩, .write 0 0 [1, 2], .finish 0, .appendToScratch,
      .append (fun _ => 0) 1 ⟨0, 0, 0, 0⟩, .write 1 0 [3]]
    (by decide +kernel)
  exact h.trans (congrArg (fun fcb => some (Except.ok fcb)) (by decide +kernel))

/-! ## Any number of restarts -/

/-- No sector has the id 0x7fff while another one has 0x8000. -/
def IdsApart (cfg : FcbCfg) (flash : List (List UInt8)) : Prop := ∀ i < flash.length, ∀ j < flash.length,
  ¬ (fcbSectorHdrRead cfg flash i = .ok (some 0x7fff) ∧ fcbSectorHdrRead cfg flash j = .ok (some 0x8000))

/-- What calls and restarts make of `s₀`. -/
inductive FcbReach (cfg : FcbCfg) (s₀ : FcbSys) : FcbSys → Prop
  | refl : FcbReach cfg s₀ s₀
  | call {s : FcbSys} (op : FcbOp) : FcbReach cfg s₀ s → FcbReach cfg s₀ (s.step cfg op)
  | restart {s : FcbSys} {fcb : Fcb} :
      FcbReach cfg s₀ s → IdsApart cfg s.fcb.flash → fcbInit cfg s.fcb.flash = some (.ok fcb) →
      FcbReach cfg s₀ ⟨fcb, s.entries⟩

/-- **The log survives restarts**: after calls and restarts in any order, a walk visits the entries that have been
finished and not rotated out, on whichever side of a restart they were written, and the next restart succeeds. -/
theorem fcb_survives_restarts (hmax : cfg.maxLen ≤ 0x7fff) (hmagic : cfg.magic ≠ 0xffffffff)
    (hblank : ∀ s ∈ flash, s = erased s.length)
    (hinit : fcbInit cfg flash = some (.ok fcb)) (hr : FcbReach cfg ⟨fcb, []⟩ s)
    (hcrc : ∀ r ∈ s.entries, r.finished = false → (fcbElemInfo cfg s.fcb.flash r.loc).1 = fcbErrCrc) :
    fcbWalk cfg s.fcb = some ((s.entries.filter (·.finished)).map FcbRec.filled) ∧
      (IdsApart cfg s.fcb.flash → ∃ fcb, fcbInit cfg s.fcb.flash = some (.ok fcb)) := by
  obtain ⟨-, -, -, halign, -⟩ := fcbInit_erased hmax hblank hinit
  have hagain : ∀ {s : FcbSys} {log base}, SysInv cfg s log base → IdsApart cfg s.fcb.flash →
      fcbInit cfg s.fcb.flash = some (.ok { s.fcb with past := [] }) := fun h hids =>
    fcbInit_inv hmax hmagic halign h.scratch h.inv (inOrder_of_headers hmagic h.inv.area hids)
  obtain ⟨log, base, h⟩ : ∃ log base, SysInv cfg s log base := by
    clear hcrc
    induction hr with
    | refl => exact ⟨_, _, SysInv.start hmax hblank hinit⟩
    | call op _ ih =>
      obtain ⟨log, base, h⟩ := ih
      exact h.step hmax op
    | restart _ hids hfcb ih =>
      obtain ⟨log, base, h⟩ := ih
      cases (hagain h hids).symm.trans hfcb
      exact ⟨log, base, ⟨h.inv.area, h.inv.active, h.inv.elemOff, h.inv.activeId⟩, h.entries, h.kept, h.scratch⟩
  exact ⟨(h.walk hmax hcrc).1, fun hids => ⟨_, hagain h hids⟩⟩

/-- An entry from before a restart. -/
theorem fcb_survives_restarts_once :
    ∃ s, FcbReach twoSectorsCfg ⟨twoSectors, []⟩ s ∧ fcbWalk twoSectorsCfg s.fcb = some [⟨0, 8, 9, 2⟩] := by
  have hr : FcbReach twoSectorsCfg ⟨twoSectors, []⟩ _ :=
    ((FcbReach.refl.call (.append (fun _ => 0) 2 ⟨0, 0, 0, 0⟩)).call (.finish 0)).restart
    (by unfold IdsApart; decide +kernel) rfl
  exact ⟨_, hr, (fcb_survives_restarts (by decide) (by decide) (by decide) fcbInit_twoSectors hr
    (by decide +kernel)).1.trans (by decide +kernel)⟩

/-! ## The ids 0x7fff and 0x8000 -/

/-- Rotating the only sector in use takes the next one, with the next id. -/
theorem run_rotates (h : FcbInv cfg s.fcb [[]] base) (k : Nat) :
    FcbInv cfg (s.run cfg (List.replicate k .rotate)).fcb [[]] (base + k) ∧
    (s.run cfg (List.replicate k .rotate)).fcb.oldest = nthSector s.fcb.flash.length s.fcb.oldest k ∧
    (s.run cfg (List.replicate k .rotate)).fcb.flash.map List.length = s.fcb.flash.map List.length := by
  induction k generalizing s base with
  | zero => exact ⟨h, (nthSector_zero h.area.oldest).symm, rfl⟩
  | succ k ih =>
    obtain ⟨fcb', heq, hold, htable, hinv, -⟩ := fcbRotate_inv h
    rw [if_pos rfl] at hinv
    have hlen : fcb'.flash.length = s.fcb.flash.length := by
      have := congrArg List.length htable
      rwa [length_map, length_map] at this
    have hstep : s.step cfg .rotate = ⟨fcb', s.entries.filter (·.loc.sector ≠ s.fcb.oldest)⟩ := by
      change FcbSys.rotate cfg s = _
      rw [FcbSys.rotate, heq]
    have hrun : s.run cfg (List.replicate (k + 1) .rotate) =
        FcbSys.run cfg ⟨fcb', s.entries.filter (·.loc.sector ≠ s.fcb.oldest)⟩ (List.replicate k .rotate) := by
      rw [replicate_succ, ← hstep]
      rfl
    obtain ⟨hinv', hold', htable'⟩ := @ih _ ⟨fcb', s.entries.filter (·.loc.sector ≠ s.fcb.oldest)⟩ hinv
    rw [hrun]
    refine ⟨?_, ?_, htable'.trans htable⟩
    · rwa [add_assoc, add_comm 1] at hinv'
    · rw [hold', hlen, hold, nthSector_rotate]

theorem HoldsId.eq_header {x : List UInt8} {id m : Nat} (h : HoldsId cfg x id [])
    (hlen : x.length = fcbDiskArea + m) : x = fcbDiskHdr cfg id ++ erased m := by
  obtain ⟨n, rfl⟩ := h
  rw [content_nil, nil_append, length_append, length_fcbDiskHdr, length_erased] at hlen
  rw [content_nil, nil_append, add_left_cancel hlen]

/-- In a table of two sectors, with both in use and empty, the flash is known. -/
theorem FcbInv.two_sectors {m : Nat} (h : FcbInv cfg fcb [[], []] base) (hold : fcb.oldest = 1)
    (htable : fcb.flash.map List.length = [fcbDiskArea + m, fcbDiskArea + m]) :
    fcb.flash = [fcbDiskHdr cfg ((base + 1) % 2 ^ 16) ++ erased m, fcbDiskHdr cfg (base % 2 ^ 16) ++ erased m] := by
  have hlen := congrArg List.length htable
  rw [length_map] at hlen
  obtain ⟨x, y, hxy⟩ := length_eq_two.1 hlen
  have h₀ := h.area.used 0 (by simp)
  have h₁ := h.area.used 1 (by simp)
  rw [hold, hxy, show nthSector [x, y].length 1 0 = 1 by simp [nthSector]] at h₀
  rw [hold, hxy, show nthSector [x, y].length 1 1 = 0 by simp [nthSector]] at h₁
  rw [hxy] at htable
  obtain ⟨hx, hrest⟩ := List.cons.inj htable
  obtain ⟨hy, -⟩ := List.cons.inj hrest
  have hx' : x = fcbDiskHdr cfg ((base + 1) % 2 ^ 16) ++ erased m := h₁.eq_header hx
  have hy' : y = fcbDiskHdr cfg (base % 2 ^ 16) ++ erased m := h₀.eq_header hy
  rw [hxy, ← hx', ← hy']

theorem run_rotates_scratch {k : Nat} (h : FcbInv cfg s.fcb [[]] base) (hlen : 1 < s.fcb.flash.length) :
    let s' := s.run cfg (List.replicate k .rotate ++ [.appendToScratch])
    FcbInv cfg s'.fcb [[], []] (base + k) ∧ s'.fcb.oldest = nthSector s.fcb.flash.length s.fcb.oldest k ∧
    s'.fcb.flash.map List.length = s.fcb.flash.map List.length := by
  obtain ⟨hinv, hold, htable⟩ := run_rotates h k
  have hrun : s.run cfg (List.replicate k .rotate ++ [.appendToScratch]) =
    (s.run cfg (List.replicate k .rotate)).appendToScratch cfg := by
    rw [FcbSys.run, foldl_append]
    rfl
  have hlen' := congrArg List.length htable
  rw [length_map, length_map] at hlen'
  have hspec := fcbAppendToScratch_inv hinv
  rw [hrun, FcbSys.appendToScratch]
  cases heq : fcbAppendToScratch cfg (s.run cfg (List.replicate k .rotate)).fcb with
  | error rc =>
    rw [heq] at hspec
    have hfree := hspec.2
    rw [hinv.fcbFreeSectorCnt_eq, hlen', length_singleton] at hfree
    omega
  | ok fcb' =>
    rw [heq] at hspec
    obtain ⟨-, hwrote, hinv'⟩ := hspec
    exact ⟨hinv', hwrote.oldest.trans hold, hwrote.table.trans htable⟩

/-- Two sectors, of which the older one has the id 0x7fff, as rotating has left it. Now the next one is taken into
use, with the id 0x8000: after a restart, the older one is the active one. -/
theorem sign_change_swaps_sectors :
    let s := FcbSys.run twoSectorsCfg ⟨twoSectors, []⟩ (List.replicate 0x7fff .rotate ++ [.appendToScratch])
    fcbInit twoSectorsCfg [erased 24, erased 24] = some (.ok twoSectors) ∧ s.fcb.oldest = 1 ∧
    s.fcb.active = 0 ∧ s.fcb.activeId = 0x8000 ∧
    fcbInit twoSectorsCfg s.fcb.flash = some (.ok ⟨s.fcb.flash, [], 0, 1, 8, 0x7fff⟩) := by
  have hstart : FcbInv twoSectorsCfg twoSectors [[]] 0 := (SysInv.start (by decide) (by decide) fcbInit_twoSectors).inv
  obtain ⟨hinv, hold, htable⟩ := @run_rotates_scratch _ _ ⟨twoSectors, []⟩ 0x7fff hstart (by decide)
  generalize FcbSys.run twoSectorsCfg ⟨twoSectors, []⟩ (List.replicate 0x7fff .rotate ++ [.appendToScratch]) =
    s at hinv hold htable
  replace hold : s.fcb.oldest = 1 := hold
  have hlen : s.fcb.flash.length = 2 := by
    have := congrArg List.length htable
    rwa [length_map, length_map] at this
  have hflash := @FcbInv.two_sectors _ _ _ 16 hinv hold htable
  have hactive : s.fcb.active = 0 := by
    rw [hinv.active, hlen, hold]
    decide
  have hid : s.fcb.activeId = 0x8000 := hinv.activeId.trans (by decide +kernel)
  refine ⟨fcbInit_twoSectors, hold, hactive, hid, ?_⟩
  rw [hflash]
  decide +kernel

end

end Zephyr
