import Mathlib.Algebra.Ring.Nat
/-!
# IV index and sequence number (net.c:562-728, :1336; settings.c)

The index has 32 bits and the sequence number 24 (`seq:24`). `bt_mesh_beacon_ivu_initiator` and the beacons are not
modelled.
-/
namespace Zephyr

structure Rpl where
  src : Nat
  oldIv : Bool
  seq : Nat
deriving DecidableEq

structure BtMesh where
  ivIndex : Nat
  seq : Nat
  ivUpdate : Bool
  ivuTest : Bool
  ivuDuration : Nat
  pendingUpdate : Bool
  ivPending : Bool
  seqPending : Bool
  rpl : List Rpl
deriving DecidableEq

structure MeshCfg where
  seqStoreRate : Nat
  ivuHours : Nat

/-- `BT_MESH_IVU_MIN_HOURS` -/
def ivuMinHours : Nat := 96

def Rpl.free : Rpl := ⟨0, false, 0⟩

/-- `BT_MESH_NET_IVI_TX` -/
def BtMesh.iviTx (m : BtMesh) : Nat := (m.ivIndex + 2 ^ 32 - m.ivUpdate.toNat) % 2 ^ 32

def rplAge (e : Rpl) : Rpl := if e.src = 0 then e else if e.oldIv then .free else { e with oldIv := true }

def btMeshRplReset (m : BtMesh) : BtMesh := { m with rpl := m.rpl.map rplAge }

def btMeshStoreIv (m : BtMesh) (onlyDuration : Bool) : BtMesh :=
    { m with ivPending := true, seqPending := m.seqPending || !onlyDuration }

def btMeshStoreSeq (cfg : MeshCfg) (m : BtMesh) : BtMesh :=
  if cfg.seqStoreRate ≠ 0 ∧ m.seq % cfg.seqStoreRate ≠ 0 then m else { m with seqPending := true }

def doUpdate (m : BtMesh) (ivIndex : Nat) (ivUpdate : Bool) : BtMesh × Bool :=
  let m := { m with ivUpdate := ivUpdate, ivuDuration := 0 }
  let m := if ivUpdate then btMeshRplReset { m with ivIndex := ivIndex } else { m with seq := 0 }
  (btMeshStoreIv m false, true)

/-- The state lasts long enough, and nothing is being sent that the change would cut (net.c:679-692). -/
def updateAllowed (m : BtMesh) (ivIndex : Nat) (ivUpdate txInProgress : Bool) : BtMesh × Bool :=
  if !m.ivuTest ∧ m.ivuDuration < ivuMinHours then (m, false)
  else if !ivUpdate ∧ txInProgress then ({ m with pendingUpdate := true }, false)
  else doUpdate m ivIndex ivUpdate

def btMeshNetIvUpdate (m : BtMesh) (ivIndex : Nat) (ivUpdate txInProgress : Bool) : BtMesh × Bool :=
  if m.ivUpdate then
    if ivIndex ≠ m.ivIndex then (m, false)
    else if ivUpdate then (m, false)
    else updateAllowed m ivIndex ivUpdate txInProgress
  else if ivIndex = m.ivIndex then (m, false)
  else if ivIndex < m.ivIndex ∨ (m.ivIndex + 42) % 2 ^ 32 < ivIndex then (m, false)
  else if (m.ivIndex + 1) % 2 ^ 32 < ivIndex then
    -- IV index recovery
    doUpdate { m with rpl := m.rpl.map fun _ => .free, ivIndex := ivIndex, seq := 0 } ivIndex ivUpdate
  else if ivIndex = (m.ivIndex + 1) % 2 ^ 32 ∧ !ivUpdate then (m, false)
  else if !ivUpdate then (m, false)
  else updateAllowed m ivIndex ivUpdate txInProgress

def btMeshNextSeq (cfg : MeshCfg) (m : BtMesh) : Nat × BtMesh :=
  (m.seq, btMeshStoreSeq cfg { m with seq := (m.seq + 1) % 2 ^ 24 })

def ivuRefresh (cfg : MeshCfg) (m : BtMesh) (txInProgress : Bool) : BtMesh :=
  let m := { m with ivuDuration := (m.ivuDuration + cfg.ivuHours) % 2 ^ 8 }
  if m.ivuDuration < ivuMinHours then btMeshStoreIv m true
  else if m.ivUpdate then (btMeshNetIvUpdate m m.ivIndex false txInProgress).1
  else btMeshStoreIv m true

/-! ## What an update does -/

/-- Nothing but the note that an update waits. -/
def Stays (m m' : BtMesh) : Prop := m' = m ∨ m' = { m with pendingUpdate := true }

/-- An update of the IV index: in progress (the index for sending stays), to normal operation, or a recovery. -/
inductive Updated (m : BtMesh) : BtMesh → Prop
  | begins (hnormal : m.ivUpdate = false) (hnext : m.ivIndex + 1 < 2 ^ 32) :
      Updated m (btMeshStoreIv { btMeshRplReset m with ivIndex := m.ivIndex + 1, ivUpdate := true, ivuDuration := 0 } false)
  | ends (hupdate : m.ivUpdate = true) : Updated m
      (btMeshStoreIv { m with ivUpdate := false, ivuDuration := 0, seq := 0 } false)
  | recovers {i : Nat} {u : Bool} (hnormal : m.ivUpdate = false) (hi : m.ivIndex + 1 < i) (hlt : i < 2 ^ 32) :
      Updated m (btMeshStoreIv { m with
        rpl := m.rpl.map fun _ => .free, ivIndex := i, seq := 0, ivUpdate := u, ivuDuration := 0 } false)

variable {m : BtMesh} {i : Nat} {u tx : Bool}

/-- Where the checks let the update through, it is done. -/
theorem updateAllowed_cases (hdo : Updated m (doUpdate m i u).1) :
    Stays m (updateAllowed m i u tx).1 ∨ Updated m (updateAllowed m i u tx).1 := by
  unfold updateAllowed
  split
  · exact .inl (.inl rfl)
  · split
    · exact .inl (.inr rfl)
    · exact .inr hdo

/-- An update begins: the index is the next one, and normal operation has lasted long enough. -/
def BeginsUpdate (m : BtMesh) (ivIndex : Nat) (ivUpdate : Bool) : Prop :=
  m.ivUpdate = false ∧ ivIndex = m.ivIndex + 1 ∧ ivUpdate = true ∧ (m.ivuTest = true ∨ ivuMinHours ≤ m.ivuDuration)

instance : Decidable (BeginsUpdate m i u) := inferInstanceAs (Decidable (_ ∧ _ ∧ _ ∧ (_ ∨ _)))

theorem updateAllowed_rpl : (updateAllowed m i u tx).1.rpl = m.rpl ∨
    (u = true ∧ (m.ivuTest = true ∨ ivuMinHours ≤ m.ivuDuration)) ∧
    (updateAllowed m i u tx).1.rpl = m.rpl.map rplAge := by
  unfold updateAllowed
  split
  · exact .inl rfl
  · split
    · exact .inl rfl
    · rename_i hlong _
      cases u with
      | false => exact .inl rfl
      | true => exact .inr ⟨⟨rfl, by simpa [or_iff_not_imp_left] using hlong⟩, rfl⟩

/-- The list is aged where an update begins, and cleared where the index is recovered. -/
theorem btMeshNetIvUpdate_rpl (hi : i < 2 ^ 32) :
    (btMeshNetIvUpdate m i u tx).1.rpl = m.rpl ∨ (btMeshNetIvUpdate m i u tx).1.rpl = m.rpl.map (fun _ => .free) ∨
      BeginsUpdate m i u ∧ (btMeshNetIvUpdate m i u tx).1.rpl = m.rpl.map rplAge := by
  unfold btMeshNetIvUpdate
  split
  · split
    · exact .inl rfl
    split
    · exact .inl rfl
    · next hu => exact updateAllowed_rpl.imp_right fun hall => absurd hall.1.1 hu
  next hnormal =>
    split
    · exact .inl rfl
    split
    · exact .inl rfl
    next hne hrange =>
      rw [Nat.mod_eq_of_lt (show m.ivIndex + 1 < 2 ^ 32 by omega)]
      split
      · right; left
        cases u with
        | true => exact List.map_map
        | false => rfl
      next hnear =>
        split
        · exact .inl rfl
        split
        · exact .inl rfl
        · refine updateAllowed_rpl.imp_right fun hall => .inr ⟨⟨by simpa using hnormal, by omega, hall.1⟩, hall.2⟩

/-- **Every call of `bt_mesh_net_iv_update`** does one of these. -/
theorem btMeshNetIvUpdate_cases (hi : i < 2 ^ 32) :
    Stays m (btMeshNetIvUpdate m i u tx).1 ∨ Updated m (btMeshNetIvUpdate m i u tx).1 := by
  have hstay : Stays m m := .inl rfl
  unfold btMeshNetIvUpdate
  split
  next hupdate =>
    -- an update is in progress: only its end is left
    split
    · exact .inl hstay
    · cases u with
      | true => exact .inl hstay
      | false => exact updateAllowed_cases (.ends hupdate)
  next hnormal =>
    rw [Bool.not_eq_true] at hnormal
    split
    · exact .inl hstay
    split
    · exact .inl hstay
    next hne hrange =>
      have hnext : (m.ivIndex + 1) % 2 ^ 32 = m.ivIndex + 1 := Nat.mod_eq_of_lt (by omega)
      rw [hnext]
      split
      next hfar =>
        right
        cases u with
        | true =>
          have hrpl : (m.rpl.map fun _ => Rpl.free).map rplAge = m.rpl.map fun _ => .free := by
            rw [List.map_map]
            rfl
          have hdone := Updated.recovers (u := true) hnormal hfar hi
          rw [← hrpl] at hdone
          exact hdone
        | false => exact .recovers hnormal hfar hi
      next hnear =>
        cases u with
        | false =>
          left
          split
          · exact hstay
          · exact hstay
        | true =>
          obtain rfl : i = m.ivIndex + 1 := by omega
          have hdo : Updated m (doUpdate m (m.ivIndex + 1) true).1 := .begins hnormal hi
          simp only [Bool.not_true, Bool.false_eq_true, and_false, if_false]
          exact updateAllowed_cases hdo

end Zephyr
