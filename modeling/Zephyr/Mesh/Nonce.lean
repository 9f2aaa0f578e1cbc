import Zephyr.Lib.Runs
import Zephyr.Mesh.IvUpdate
/-!
# Nonces of a mesh node over its whole life (net.c:719-858; settings.c:162, :196, :897-955)

Every `n`-th sequence number is stored, by a work item that runs some time later. A power cut before it runs brings
numbers back that have been used (`store_comes_late`).
-/
namespace Zephyr

structure SentPdu where
  ivIndex : Nat
  seq : Nat
  pdu : List UInt8
deriving DecidableEq

/-- The pair that must not come twice. -/
def SentPdu.nonce (p : SentPdu) : Nat × Nat := (p.ivIndex, p.seq)

structure MeshNode where
  mesh : BtMesh
  storedIv : Option (Nat × Bool × Nat)
  storedSeq : Option Nat
  sent : List SentPdu
deriving DecidableEq

inductive MeshOp where
  | encode (pdu : List UInt8) (ok : Bool)
  | resend (pdu : List UInt8) (opens txInProgress : Bool)
  | ivUpdate (ivIndex : UInt32) (ivUpdate txInProgress : Bool)
  | ivUpdateTest (enable : Bool)
  | ivuRefresh (txInProgress : Bool)
  | store
  | powerCycle (midStore : Bool) (rpl : List Rpl)

/-- `IV_UPDATE_SEQ_LIMIT` -/
def ivUpdateSeqLimit : Nat := 8000000

def btMeshNetEncode (cfg : MeshCfg) (node : MeshNode) (pdu : List UInt8) (ok : Bool) : MeshNode :=
  let next := btMeshNextSeq cfg node.mesh
  { node with mesh := next.2, sent := if ok then ⟨node.mesh.iviTx, next.1, pdu⟩ :: node.sent else node.sent }

def btMeshNetResend (cfg : MeshCfg) (node : MeshNode) (pdu : List UInt8) (opens txInProgress : Bool) : MeshNode :=
  if !opens then node else
  let node := btMeshNetEncode cfg node pdu true
  if !node.mesh.ivUpdate ∧ ivUpdateSeqLimit < node.mesh.seq then
    { node with mesh := (btMeshNetIvUpdate node.mesh ((node.mesh.ivIndex + 1) % 2 ^ 32) true txInProgress).1 }
  else node

def storePendingIv (node : MeshNode) : MeshNode :=
  if node.mesh.ivPending then
    { node with
      mesh := { node.mesh with ivPending := false }
      storedIv := some (node.mesh.ivIndex, node.mesh.ivUpdate, node.mesh.ivuDuration % 2 ^ 7) }
  else node

def storePendingSeq (node : MeshNode) : MeshNode :=
  if node.mesh.seqPending then
    { node with mesh := { node.mesh with seqPending := false }, storedSeq := some node.mesh.seq }
  else node

def ivSet (m : BtMesh) : Option (Nat × Bool × Nat) → BtMesh
  | none => { m with ivIndex := 0, ivUpdate := false }
  | some (ivIndex, ivUpdate, duration) => { m with ivIndex := ivIndex, ivUpdate := ivUpdate, ivuDuration := duration }

def seqSet (cfg : MeshCfg) (m : BtMesh) : Option Nat → BtMesh
  | none => { m with seq := 0 }
  | some v =>
    if 0 < cfg.seqStoreRate then
      let seq := (v + (cfg.seqStoreRate - v % cfg.seqStoreRate)) % 2 ^ 24
      { m with seq := (seq + 2 ^ 24 - 1) % 2 ^ 24 }
    else { m with seq := v }

/-- What a reboot finds. -/
def BtMesh.zeroed (rpl : List Rpl) : BtMesh := ⟨0, 0, false, false, 0, false, false, false, rpl⟩

def meshStep (cfg : MeshCfg) (node : MeshNode) : MeshOp → Option MeshNode
  | .encode pdu ok => some (btMeshNetEncode cfg node pdu ok)
  | .resend pdu opens tx => some (btMeshNetResend cfg node pdu opens tx)
  | .ivUpdate i u tx => some { node with mesh := (btMeshNetIvUpdate node.mesh i.toNat u tx).1 }
  | .ivUpdateTest enable => some { node with mesh := { node.mesh with ivuTest := enable, ivuDuration := 0 } }
  | .ivuRefresh tx => some { node with mesh := ivuRefresh cfg node.mesh tx }
  | .store => some (storePendingSeq (storePendingIv node))
  | .powerCycle midStore rpl =>
    let node := if midStore then storePendingIv node else node
    some { node with mesh := seqSet cfg (ivSet (.zeroed rpl) node.storedIv) node.storedSeq }

/-- `bt_mesh_provision` (main.c:36) with `bt_mesh_net_create`: nothing is stored yet. -/
def btMeshProvision (ivIndex : UInt32) (ivUpdate : Bool) (rpl : List Rpl) : MeshNode :=
  ⟨btMeshStoreIv ⟨ivIndex.toNat, 0, ivUpdate, false, ivuMinHours, false, false, false, rpl⟩ false, none, none, []⟩

/-- The value that a reboot goes on with, where `v` is stored and 24 bits are enough. -/
def rounded (cfg : MeshCfg) (v : Nat) : Nat :=
  if 0 < cfg.seqStoreRate then v + (cfg.seqStoreRate - v % cfg.seqStoreRate) - 1 else v

/-- No power cut while a store of the IV index or of the sequence number is pending, and the sequence number stays
below 2 ^ 24. -/
def StoresDone (cfg : MeshCfg) (node : MeshNode) : MeshOp → Prop
  | .encode _ _ => node.mesh.seq + 1 < 2 ^ 24
  | .resend _ opens _ => opens = true → node.mesh.seq + 1 < 2 ^ 24
  | .powerCycle _ _ => node.mesh.ivPending = false ∧ node.mesh.seqPending = false ∧
      ∀ v ∈ node.storedSeq, rounded cfg v < 2 ^ 24
  | _ => True

instance decidableStoresDone (cfg : MeshCfg) (node : MeshNode) (op : MeshOp) : Decidable (StoresDone cfg node op) := by
  cases op <;> dsimp only [StoresDone] <;> infer_instance

/-! ## Always ahead of what was used -/

/-- `m` has not used the numbers from its own on. -/
def Behind (p : SentPdu) (m : BtMesh) : Prop := p.ivIndex < m.iviTx ∨ p.ivIndex = m.iviTx ∧ p.seq < m.seq

structure MeshInv (cfg : MeshCfg) (node : MeshNode) : Prop where
  ivIndex_lt : node.mesh.ivIndex < 2 ^ 32
  seq_lt : node.mesh.seq < 2 ^ 24
  ivUpdate_pos : node.mesh.ivUpdate = true → 0 < node.mesh.ivIndex
  behind : ∀ p ∈ node.sent, Behind p node.mesh
  nodup : (node.sent.map SentPdu.nonce).Nodup
  storedIv : node.mesh.ivPending = false → ∃ d, node.storedIv = some (node.mesh.ivIndex, node.mesh.ivUpdate, d)
  storedSeq : node.mesh.seqPending = false →
    ∃ v, node.storedSeq = some v ∧ v ≤ node.mesh.seq ∧ node.mesh.seq ≤ rounded cfg v

variable {cfg : MeshCfg} {node : MeshNode} {m' : BtMesh}

theorem iviTx_eq {m : BtMesh} (hlt : m.ivIndex < 2 ^ 32) (hpos : m.ivUpdate = true → 0 < m.ivIndex) :
    m.iviTx = m.ivIndex - m.ivUpdate.toNat := by
  unfold BtMesh.iviTx
  cases hu : m.ivUpdate with
  | false => simp only [Bool.toNat_false]; omega
  | true =>
    have := hpos hu
    simp only [Bool.toNat_true]
    omega

/-- The end of a stretch of the store rate is not passed where no store is due. -/
theorem le_rounded_succ {v n : Nat} (hrate : cfg.seqStoreRate ≠ 0) (hle : n ≤ rounded cfg v)
    (hmod : (n + 1) % cfg.seqStoreRate ≠ 0) :
    n + 1 ≤ rounded cfg v := by
  have hpos : 0 < cfg.seqStoreRate := Nat.pos_of_ne_zero hrate
  have hv := Nat.mod_lt v hpos
  rw [rounded, if_pos hpos] at hle ⊢
  rcases Nat.lt_or_ge (n + 1) (v + (cfg.seqStoreRate - v % cfg.seqStoreRate)) with h | h
  · omega
  · have hend : n + 1 = cfg.seqStoreRate * (v / cfg.seqStoreRate + 1) := by
      have hdiv := Nat.div_add_mod v cfg.seqStoreRate
      rw [Nat.mul_add, Nat.mul_one]
      omega
    exact absurd (hend ▸ Nat.mul_mod_right _ _) hmod

section

variable (h : MeshInv cfg node)

include h

/-- Nothing that matters here has changed. -/
theorem MeshInv.same (hiv : m'.ivIndex = node.mesh.ivIndex) (hup : m'.ivUpdate = node.mesh.ivUpdate)
    (hseq : m'.seq = node.mesh.seq) (hivp : m'.ivPending = false → node.mesh.ivPending = false)
    (hseqp : m'.seqPending = false → node.mesh.seqPending = false) : MeshInv cfg { node with mesh := m' } := by
  have htx : m'.iviTx = node.mesh.iviTx := by rw [BtMesh.iviTx, BtMesh.iviTx, hiv, hup]
  refine ⟨by rw [hiv]; exact h.ivIndex_lt, by rw [hseq]; exact h.seq_lt,
    by rw [hiv, hup]; exact h.ivUpdate_pos, fun p hp => ?_, h.nodup, ?_, ?_⟩
  · rw [Behind, htx, hseq]
    exact h.behind p hp
  · rw [hiv, hup]
    exact fun hc => h.storedIv (hivp hc)
  · rw [hseq]
    exact fun hc => h.storedSeq (hseqp hc)

/-- An update of the IV index goes ahead, and both values are to be stored. -/
theorem MeshInv.updated (hup : Updated node.mesh m') : MeshInv cfg { node with mesh := m' } := by
  have htx := iviTx_eq h.ivIndex_lt h.ivUpdate_pos
  have hpend : m'.ivPending = true ∧ m'.seqPending = true := by
    cases hup <;> exact ⟨rfl, Bool.or_true _⟩
  -- the place in the numbering: where the index for sending moves, the number starts over
  obtain ⟨hlt, hpos, hseq, hahead⟩ : m'.ivIndex < 2 ^ 32 ∧ (m'.ivUpdate = true → 0 < m'.ivIndex) ∧ m'.seq < 2 ^ 24 ∧
      (node.mesh.iviTx < m'.iviTx ∨ m'.iviTx = node.mesh.iviTx ∧ m'.seq = node.mesh.seq) := by
    have hlt := h.ivIndex_lt
    cases hup with
    | begins hnormal hnext =>
      rw [hnormal] at htx
      refine ⟨hnext, fun _ => Nat.succ_pos _, h.seq_lt, .inr ⟨?_, rfl⟩⟩
      rw [htx, iviTx_eq hnext fun _ => Nat.succ_pos _]
      rfl
    | ends hupdate =>
      have hp := h.ivUpdate_pos hupdate
      have hnow : BtMesh.iviTx (btMeshStoreIv { node.mesh with ivUpdate := false, ivuDuration := 0, seq := 0 } false) =
          node.mesh.ivIndex :=
        iviTx_eq hlt fun _ => hp
      rw [hupdate, Bool.toNat_true] at htx
      have hless : node.mesh.iviTx < node.mesh.ivIndex := by omega
      exact ⟨hlt, fun _ => hp, Nat.pow_pos (by decide), .inl (lt_of_lt_of_eq hless hnow.symm)⟩
    | @recovers i u hnormal hi hilt =>
      have hp : 0 < i := by omega
      rw [hnormal] at htx
      refine ⟨hilt, fun _ => hp, Nat.pow_pos (by decide), .inl ?_⟩
      rw [htx, iviTx_eq hilt fun _ => hp]
      change node.mesh.ivIndex - 0 < i - u.toNat
      have := Bool.toNat_le u
      omega
  refine ⟨hlt, hseq, hpos, fun p hp => ?_, h.nodup, ?_, ?_⟩
  · have hb := h.behind p hp
    unfold Behind at hb ⊢
    simp only
    omega
  · exact fun hc => Bool.noConfusion (hpend.1.symm.trans hc)
  · exact fun hc => Bool.noConfusion (hpend.2.symm.trans hc)

theorem MeshInv.ivUpdate {i : Nat} (hi : i < 2 ^ 32) (u tx : Bool) :
    MeshInv cfg { node with mesh := (btMeshNetIvUpdate node.mesh i u tx).1 } := by
  rcases btMeshNetIvUpdate_cases (m := node.mesh) hi with (hs | hs) | hup
  · rw [hs]
    exact h
  · rw [hs]
    exact h.same rfl rfl rfl id id
  · exact h.updated hup

/-- Taking a number: it is new, and where it starts a stretch of the store rate the counter is to be stored. -/
theorem MeshInv.encode (hlt : node.mesh.seq + 1 < 2 ^ 24) (pdu : List UInt8) (ok : Bool) :
    MeshInv cfg (btMeshNetEncode cfg node pdu ok) := by
  have hseq : (node.mesh.seq + 1) % 2 ^ 24 = node.mesh.seq + 1 := Nat.mod_eq_of_lt hlt
  obtain ⟨hiv, hup, hn, hivp, hseqp⟩ : (btMeshNextSeq cfg node.mesh).2.ivIndex = node.mesh.ivIndex ∧
      (btMeshNextSeq cfg node.mesh).2.ivUpdate = node.mesh.ivUpdate ∧
      (btMeshNextSeq cfg node.mesh).2.seq = node.mesh.seq + 1 ∧
      (btMeshNextSeq cfg node.mesh).2.ivPending = node.mesh.ivPending ∧
      ((btMeshNextSeq cfg node.mesh).2.seqPending = false →
        node.mesh.seqPending = false ∧ cfg.seqStoreRate ≠ 0 ∧ (node.mesh.seq + 1) % cfg.seqStoreRate ≠ 0) := by
    simp only [btMeshNextSeq, hseq, btMeshStoreSeq]
    split
    next hskip => exact ⟨rfl, rfl, rfl, rfl, fun hc => ⟨hc, hskip⟩⟩
    next => exact ⟨rfl, rfl, rfl, rfl, fun hc => Bool.noConfusion hc⟩
  have htx : (btMeshNextSeq cfg node.mesh).2.iviTx = node.mesh.iviTx := by rw [BtMesh.iviTx, BtMesh.iviTx, hiv, hup]
  have hbehind : ∀ p ∈ node.sent, Behind p (btMeshNextSeq cfg node.mesh).2 := by
    intro p hp
    have hb := h.behind p hp
    unfold Behind at hb ⊢
    omega
  have hfresh : (node.mesh.iviTx, node.mesh.seq) ∉ node.sent.map SentPdu.nonce := by
    intro hc
    obtain ⟨p, hp, heq⟩ := List.mem_map.1 hc
    obtain ⟨h1, h2⟩ := Prod.mk.inj heq
    have hb := h.behind p hp
    unfold Behind at hb
    omega
  refine ⟨by rw [btMeshNetEncode, hiv]; exact h.ivIndex_lt, by rw [btMeshNetEncode, hn]; exact hlt,
    by rw [btMeshNetEncode, hiv, hup]; exact h.ivUpdate_pos, ?_, ?_, ?_, ?_⟩
  · cases ok with
    | false => exact hbehind
    | true =>
      intro p hp
      rcases List.mem_cons.1 hp with rfl | hp
      · exact .inr ⟨htx.symm, by rw [btMeshNetEncode, hn]; exact Nat.lt_succ_self _⟩
      · exact hbehind p hp
  · cases ok with
    | false => exact h.nodup
    | true => exact List.nodup_cons.2 ⟨hfresh, h.nodup⟩
  · rw [btMeshNetEncode, hivp, hiv, hup]
    exact h.storedIv
  · intro hc
    obtain ⟨hold, hrate, hmod⟩ := hseqp hc
    obtain ⟨v, hv, hle, hge⟩ := h.storedSeq hold
    refine ⟨v, hv, by rw [btMeshNetEncode, hn]; omega, ?_⟩
    rw [btMeshNetEncode, hn]
    exact le_rounded_succ hrate hge hmod

theorem MeshInv.resend {opens : Bool} (hlt : opens = true → node.mesh.seq + 1 < 2 ^ 24) (pdu : List UInt8) (tx : Bool) :
    MeshInv cfg (btMeshNetResend cfg node pdu opens tx) := by
  cases opens with
  | false => exact h
  | true =>
    have henc := h.encode (hlt rfl) pdu true
    simp only [btMeshNetResend, Bool.not_true, Bool.false_eq_true, if_false]
    split
    · exact henc.ivUpdate (Nat.mod_lt _ (Nat.pow_pos (by decide))) true tx
    · exact henc

theorem MeshInv.refresh (tx : Bool) : MeshInv cfg { node with mesh := ivuRefresh cfg node.mesh tx } := by
  have hdur : MeshInv cfg { node with
      mesh := { node.mesh with ivuDuration := (node.mesh.ivuDuration + cfg.ivuHours) % 2 ^ 8 } } :=
    h.same rfl rfl rfl id id
  have hstore : ∀ m : BtMesh, MeshInv cfg { node with mesh := m } →
    MeshInv cfg { node with mesh := btMeshStoreIv m true } := by
    refine fun m hm => hm.same rfl rfl rfl (fun hc => Bool.noConfusion hc) fun hc => ?_
    simpa only [btMeshStoreIv, Bool.not_true, Bool.or_false] using hc
  unfold ivuRefresh
  dsimp only
  split
  · exact hstore _ hdur
  · split
    · exact hdur.ivUpdate h.ivIndex_lt false tx
    · exact hstore _ hdur

theorem MeshInv.storeIv : MeshInv cfg (storePendingIv node) := by
  unfold storePendingIv
  split
  · exact ⟨h.ivIndex_lt, h.seq_lt, h.ivUpdate_pos, h.behind, h.nodup, fun _ => ⟨_, rfl⟩, h.storedSeq⟩
  · exact h

theorem MeshInv.storeSeq : MeshInv cfg (storePendingSeq node) := by
  unfold storePendingSeq
  split
  · refine ⟨h.ivIndex_lt, h.seq_lt, h.ivUpdate_pos, h.behind, h.nodup, h.storedIv, fun _ => ⟨_, rfl, Nat.le_refl _, ?_⟩⟩
    unfold rounded
    split
    next hpos =>
      have := Nat.mod_lt node.mesh.seq hpos
      dsimp only
      omega
    next => exact Nat.le_refl _
  · exact h

end

theorem seqSet_rounded {m : BtMesh} {v : Nat}
    (hlt : rounded cfg v < 2 ^ 24) : seqSet cfg m (some v) = { m with seq := rounded cfg v } := by
  by_cases hpos : 0 < cfg.seqStoreRate
  · have hv := Nat.mod_lt v hpos
    rw [rounded, if_pos hpos] at hlt
    have hback : ((v + (cfg.seqStoreRate - v % cfg.seqStoreRate)) % 2 ^ 24 + 2 ^ 24 - 1) % 2 ^ 24 =
        v + (cfg.seqStoreRate - v % cfg.seqStoreRate) - 1 := by omega
    rw [seqSet, if_pos hpos, rounded, if_pos hpos]
    dsimp only
    rw [hback]
  · rw [seqSet, if_neg hpos, rounded, if_neg hpos]

/-- With nothing left to store, a reboot goes on at the same IV index, and not behind the last number. -/
theorem MeshInv.reload (h : MeshInv cfg node) (hiv : node.mesh.ivPending = false) (hseq : node.mesh.seqPending = false)
    (hlt : ∀ v ∈ node.storedSeq, rounded cfg v < 2 ^ 24) (rpl : List Rpl) :
    MeshInv cfg { node with mesh := seqSet cfg (ivSet (.zeroed rpl) node.storedIv) node.storedSeq } := by
  obtain ⟨d, hd⟩ := h.storedIv hiv
  obtain ⟨v, hv, hle, hge⟩ := h.storedSeq hseq
  have hvlt := hlt v hv
  have hmesh : seqSet cfg (ivSet (.zeroed rpl) node.storedIv) node.storedSeq = { BtMesh.zeroed rpl with
        ivIndex := node.mesh.ivIndex, ivUpdate := node.mesh.ivUpdate, ivuDuration := d, seq := rounded cfg v } := by
    rw [hd, hv, seqSet_rounded hvlt]
    rfl
  rw [hmesh]
  refine ⟨h.ivIndex_lt, hvlt, h.ivUpdate_pos, fun p hp => ?_, h.nodup, fun _ => ⟨d, hd⟩,
    fun _ => ⟨v, hv, Nat.le_trans hle hge, Nat.le_refl _⟩⟩
  rcases h.behind p hp with hb | ⟨hb, hlt'⟩
  · exact .inl hb
  · exact .inr ⟨hb, Nat.lt_of_lt_of_le hlt' hge⟩

theorem meshStep_inv {op : MeshOp} (h : MeshInv cfg node) (hok : StoresDone cfg node op) :
    ∃ node', meshStep cfg node op = some node' ∧ MeshInv cfg node' := by
  cases op with
  | encode pdu ok => exact ⟨_, rfl, h.encode hok pdu ok⟩
  | resend pdu opens tx => exact ⟨_, rfl, h.resend hok pdu tx⟩
  | ivUpdate i u tx => exact ⟨_, rfl, h.ivUpdate i.toNat_lt u tx⟩
  | ivUpdateTest enable => exact ⟨_, rfl, h.same rfl rfl rfl id id⟩
  | ivuRefresh tx => exact ⟨_, rfl, h.refresh tx⟩
  | store => exact ⟨_, rfl, h.storeIv.storeSeq⟩
  | powerCycle midStore rpl =>
    obtain ⟨hiv, hseq, hlt⟩ := hok
    have hnone : storePendingIv node = node := by rw [storePendingIv, hiv]; rfl
    have hsame : (if midStore then storePendingIv node else node) = node := by rw [hnone, ite_self]
    refine ⟨_, rfl, ?_⟩
    rw [hsame]
    exact h.reload hiv hseq hlt rpl

/-- **No nonce comes twice**, over any number of IV updates and power cycles, as long as no power cut comes before
a pending store and the sequence number does not run out. -/
theorem nonces_differ {ivIndex : UInt32} {ivUpdate : Bool} {rpl : List Rpl} {ops : List MeshOp}
    (hstart : ivUpdate = true → 0 < ivIndex.toNat)
    (hall : Runs.Along (meshStep cfg) (StoresDone cfg) (btMeshProvision ivIndex ivUpdate rpl) ops) :
    ∃ node, Runs.run (meshStep cfg) (btMeshProvision ivIndex ivUpdate rpl) ops = some node ∧
    (node.sent.map SentPdu.nonce).Nodup := by
  have hinv : MeshInv cfg (btMeshProvision ivIndex ivUpdate rpl) :=
    ⟨ivIndex.toNat_lt, Nat.pow_pos (by decide), hstart, fun _ hp => absurd hp List.not_mem_nil,
      List.nodup_nil, fun hc => Bool.noConfusion hc,
      fun hc => Bool.noConfusion hc⟩
  obtain ⟨node, hrun, h⟩ := Runs.run_total (fun _ _ => meshStep_inv) hinv hall
  exact ⟨node, hrun, h.nodup⟩

/-- Two PDUs, a power cycle, an IV update with its end, and a PDU after each. -/
def quietLife : List MeshOp :=
  [.store, .encode [1] true, .encode [2] true, .powerCycle false [], .encode [3] true, .ivUpdate 1 true false, .store,
    .ivUpdateTest true, .ivUpdate 1 false false, .encode [4] true, .store, .powerCycle false [], .resend [5] true false]

theorem nonces_differ_quietLife :
    ∃ node, Runs.run (meshStep ⟨128, 24⟩) (btMeshProvision 0 false []) quietLife = some node ∧
    (node.sent.map SentPdu.nonce).Nodup :=
  nonces_differ (fun hc => Bool.noConfusion hc) (by decide +kernel)

/-- With the default rate of 128: the node has stored its values, sends 128 PDUs and loses power before the store
of the counter runs. -/
def lateStore : List MeshOp :=
    .store :: List.replicate 128 (.encode [1] true) ++ [.powerCycle false [], .encode [2] true]

/-- The number 127 is used again, for another PDU. -/
theorem store_comes_late :
    ((Runs.run (meshStep ⟨128, 24⟩) (btMeshProvision 0 false []) lateStore).map fun node =>
      decide (⟨0, 127, [1]⟩ ∈ node.sent ∧ ⟨0, 127, [2]⟩ ∈ node.sent)) = some true := by
  decide +kernel

end Zephyr
