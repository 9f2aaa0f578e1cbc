import Zephyr.Lib.Runs
import Zephyr.Mesh.Transport
/-!
# Replayed messages (transport.c:534, :1160; net.c:562, :622)

The replay list has one entry for a source: the number of the last message that was handed up, with its IV index.
`AirPdu` is an authentic network PDU; who has it can send it again at any time. It reaches the transport layer if
its IV index is that of the node or the one before (`net_decrypt`, net.c:992), so that what is known about older
ones may be forgotten.

Two ways lead around the list. `bt_mesh_rpl_reset` clears entries in the middle, and `is_replay` takes a free entry
in front of the one of the source (`hole_hides_entry`). And a segmented message is listed under the number of the
segment that completed it, while segments that were sent again have greater numbers (`resent_completes_again`).
-/
namespace Zephyr

open List Bool

/-- `net_decrypt` sees to the unicast source; numbers have 24 bits, IV indices 32. -/
structure AirPdu where
  ivIndex : Nat
  seq : Nat
  src : Nat
  dst : Nat
  ctl : Bool
  payload : List UInt8
  src_ne : src ≠ 0
deriving DecidableEq

/-- An SDU of the upper transport layer: an unsegmented one is its PDU, a segmented one has the SeqAuth of all of
its segments. -/
inductive SduId where
  | unseg (src dst ivIndex seq : Nat)
  | seg (src dst seqAuth : Nat)
deriving DecidableEq

def AirPdu.segmented (pdu : AirPdu) : Bool := (pdu.payload.headD 0).toNat.testBit 7

def AirPdu.seqAuth (pdu : AirPdu) : Nat :=
  match pdu.payload with
  | _ :: b1 :: b2 :: b3 :: _ => seqAuthOf pdu.ivIndex (firstSeq pdu.seq (segHdr b1 b2 b3).seqZero)
  | _ => 0

/-- The SDU that a PDU belongs to. -/
def AirPdu.sdu (pdu : AirPdu) : SduId :=
  if pdu.segmented then .seg pdu.src pdu.dst pdu.seqAuth else .unseg pdu.src pdu.dst pdu.ivIndex pdu.seq

/-- An SDU that `sdu_recv` got with a local match, and the PDU with which it did. -/
structure HandedUp where
  sdu : SduId
  pdu : AirPdu
deriving DecidableEq

structure ReplaySys where
  trans : Trans
  log : List HandedUp
deriving DecidableEq

inductive ReplayOp where
  | recv (pdu : AirPdu) (localMatch friendMatch : Bool)
  | ivUpdate (ivIndex : UInt32) (ivUpdate txInProgress : Bool)
  | ivUpdateTest (enable : Bool)
  | ivuRefresh (txInProgress : Bool)
  | segAck (i : Nat) (expired : Bool)

/-- Which of the two IV indices the bit of the PDU is taken for. -/
def AirPdu.oldIv (pdu : AirPdu) (m : BtMesh) : Bool := pdu.ivIndex % 2 ≠ m.ivIndex % 2

def AirPdu.rx (pdu : AirPdu) (m : BtMesh) (localMatch friendMatch : Bool) : TransRx :=
  ⟨false, pdu.src, pdu.dst, pdu.seq, pdu.oldIv m, pdu.ctl, localMatch, friendMatch⟩

/-- What was handed up by the PDU, if anything. -/
def logged (pdu : AirPdu) (log : List HandedUp) (r : SegResult) : List HandedUp :=
  match r with
  | .sduRecv call => if call.localMatch then ⟨pdu.sdu, pdu⟩ :: log else log
  | _ => log

def recvPdu (cfg : TransCfg) (s : ReplaySys) (pdu : AirPdu) (localMatch friendMatch : Bool) : ReplaySys :=
  -- the MIC does not match under another IV index
  if s.trans.mesh.iviRx (pdu.oldIv s.trans.mesh) ≠ pdu.ivIndex then s else
  let out := btMeshTransRecv cfg s.trans (pdu.rx s.trans.mesh localMatch friendMatch) pdu.payload
  ⟨out.trans, logged pdu s.log out.result⟩

def replayStep (cfg : TransCfg) (mcfg : MeshCfg) (s : ReplaySys) : ReplayOp → Option ReplaySys
  | .recv pdu localMatch friendMatch => some (recvPdu cfg s pdu localMatch friendMatch)
  | .ivUpdate i u tx => some { s with trans := { s.trans with mesh := (btMeshNetIvUpdate s.trans.mesh i.toNat u tx).1 } }
  | .ivUpdateTest enable =>
    some { s with trans := { s.trans with mesh := { s.trans.mesh with ivuTest := enable, ivuDuration := 0 } } }
  | .ivuRefresh tx => some { s with trans := { s.trans with mesh := ivuRefresh mcfg s.trans.mesh tx } }
  | .segAck i expired => some { s with trans := (segAck cfg s.trans i expired).1 }

/-- A reassembly context still knows that the SDU of this segment is over, or that there has been a newer one. -/
def remembers (t : Trans) (pdu : AirPdu) : Bool :=
  let found := segRxFind pdu.src pdu.dst pdu.seqAuth t.segRx
  match found.1 with
  | none => false
  | some i => pdu.seqAuth < (found.2.getD i default).seqAuth || !(found.2.getD i default).inUse

/-- `p` was not sent after `q`. -/
def AirPdu.notAfter (p q : AirPdu) : Prop := p.ivIndex < q.ivIndex ∨ p.ivIndex = q.ivIndex ∧ p.seq ≤ q.seq

/-! ## The replay list -/

/-- One entry for a source, and free ones behind all others. -/
def RplOk : List Rpl → Prop
  | [] => True
  | e :: rpl => if e.src = 0 then ∀ e' ∈ rpl, e'.src = 0 else (∀ e' ∈ rpl, e'.src ≠ e.src) ∧ RplOk rpl

instance decidableRplOk : (rpl : List Rpl) → Decidable (RplOk rpl)
  | [] => isTrue trivial
  | e :: rpl =>
    have := decidableRplOk rpl
    inferInstanceAs (Decidable (if e.src = 0 then ∀ e' ∈ rpl, e'.src = 0 else (∀ e' ∈ rpl, e'.src ≠ e.src) ∧ RplOk rpl))

instance (p q : AirPdu) : Decidable (p.notAfter q) := inferInstanceAs (Decidable (_ ∨ _))

/-- The entries with `old_iv` set are the last ones. -/
def OldLast (rpl : List Rpl) : Prop := rpl.Pairwise fun e e' => e.src ≠ 0 → e.oldIv = true → e'.src = 0 ∨
    e'.oldIv = true

instance (rpl : List Rpl) : Decidable (OldLast rpl) := inferInstanceAs (Decidable (List.Pairwise _ rpl))

/-- No free entry of the replay list comes in front of another one, and segments of an SDU that was handed up, sent
after the one that completed it, come only while a reassembly context remembers it. (At IV index 0 there is no
index before.) -/
def NoGap (s : ReplaySys) : ReplayOp → Prop
  | .recv pdu _ _ => (s.trans.mesh.ivIndex = 0 → pdu.ivIndex + 1 ≠ 2 ^ 32) ∧
      (pdu.segmented = true → ∀ a ∈ s.log, a.sdu = pdu.sdu → pdu.notAfter a.pdu ∨ remembers s.trans pdu = true)
  | .ivUpdate i u _ => BeginsUpdate s.trans.mesh i.toNat u → OldLast s.trans.mesh.rpl
  | _ => True

instance decidableNoGap (s : ReplaySys) (op : ReplayOp) : Decidable (NoGap s op) := by
  cases op <;> dsimp only [NoGap] <;> infer_instance

variable {rx : TransRx} {rpl : List Rpl}

/-- The message is newer than the entry. -/
def Newer (rx : TransRx) (e : Rpl) : Prop := rx.oldIv = false ∧ e.oldIv = true ∨ rx.oldIv = e.oldIv ∧ e.seq < rx.seq

/-- What the list is like when a message has been let through. -/
structure Listed (rx : TransRx) (rpl rpl' : List Rpl) : Prop where
  ok : RplOk rpl'
  entry : ⟨rx.addr, rx.oldIv, rx.seq⟩ ∈ rpl'
  newer : ∀ e ∈ rpl, e.src = rx.addr → Newer rx e
  others : ∀ e ∈ rpl, e.src ≠ 0 → e.src ≠ rx.addr → e ∈ rpl'
  sources : ∀ e ∈ rpl', e.src = rx.addr ∨ e ∈ rpl

theorem rplOk_of_free (h : ∀ e ∈ rpl, e.src = 0) : RplOk rpl := by
  cases rpl with
  | nil => trivial
  | cons e rpl =>
    rw [RplOk, if_pos (h e mem_cons_self)]
    exact fun e' he' => h e' (mem_cons_of_mem e he')

theorem rplLoop_listed (haddr : rx.addr ≠ 0) (hok : RplOk rpl) (h : (rplLoop rx rpl).1 = false) :
    Listed rx rpl (rplLoop rx rpl).2 := by
  induction rpl with
  | nil => cases h
  | cons e rpl ih =>
    unfold RplOk at hok
    unfold rplLoop at h ⊢
    by_cases hfree : e.src = 0
    · -- a free entry: all behind it are free too
      rw [if_pos hfree] at hok ⊢
      have hzero : ∀ e' ∈ e :: rpl, e'.src = 0 := forall_mem_cons.2 ⟨hfree, hok⟩
      refine ⟨?_, mem_cons_self, fun e' he' hc => absurd (hc.symm.trans (hzero e' he')) haddr,
        fun e' he' hc => absurd (hzero e' he') hc,
        fun e' he' => (mem_cons.1 he').imp (by rintro rfl; rfl) (mem_cons_of_mem e)⟩
      rw [RplOk, if_neg haddr]
      exact ⟨fun e' he' hc => haddr (hc.symm.trans (hok e' he')), rplOk_of_free hok⟩
    rw [if_neg hfree] at hok h ⊢
    obtain ⟨hdiff, hrest⟩ := hok
    by_cases hsrc : e.src = rx.addr
    · -- the entry of the source
      rw [if_pos hsrc] at h ⊢
      have hlisted : Newer rx e → Listed rx (e :: rpl) ({ e with seq := rx.seq, oldIv := rx.oldIv } :: rpl) := by
        intro hnewer
        have hothers : ∀ e' ∈ e :: rpl, e'.src = rx.addr → e' = e := fun e' he' hc =>
          (mem_cons.1 he').resolve_right fun he' => hdiff e' he' (hc.trans hsrc.symm)
        refine ⟨?_, mem_cons.2 (.inl (by rw [hsrc])), fun e' he' hc => hothers e' he' hc ▸ hnewer,
          fun e' he' _ hc => ?_,
          fun e' he' => (mem_cons.1 he').imp (by rintro rfl; exact hsrc) (mem_cons_of_mem e)⟩
        · rw [RplOk, if_neg hfree]
          exact ⟨hdiff, hrest⟩
        · exact (mem_cons.1 he').elim (fun heq => absurd (heq ▸ hsrc) hc) (mem_cons_of_mem _)
      by_cases hold : (rx.oldIv && !e.oldIv) = true
      · rw [if_pos hold] at h
        cases h
      rw [if_neg hold] at h ⊢
      by_cases hnew : ((!rx.oldIv && e.oldIv) || decide (e.seq < rx.seq)) = true
      · rw [if_pos hnew]
        refine hlisted ?_
        unfold Newer
        rw [or_eq_true, decide_eq_true_iff] at hnew
        cases hrx : rx.oldIv <;> cases he : e.oldIv <;> simp_all
      · rw [if_neg hnew] at h
        cases h
    · rw [if_neg hsrc] at h ⊢
      have hl := ih hrest h
      refine ⟨?_, mem_cons_of_mem e hl.entry, ?_, ?_, ?_⟩
      · rw [RplOk, if_neg hfree]
        refine ⟨fun e' he' => ?_, hl.ok⟩
        rcases hl.sources e' he' with hc | he'
        · exact fun hc' => hsrc (hc'.symm.trans hc)
        · exact hdiff e' he'
      · exact forall_mem_cons.2 ⟨fun hc => absurd hc hsrc, hl.newer⟩
      · refine forall_mem_cons.2 ⟨fun _ _ => mem_cons_self, fun e' he' h1 h2 =>
          mem_cons_of_mem e (hl.others e' he' h1 h2)⟩
      · refine forall_mem_cons.2 ⟨.inr mem_cons_self, fun e' he' => (hl.sources e' he').imp_right (mem_cons_of_mem e)⟩

/-! ## What a PDU does to the list -/

/-- The message was let through and is listed. -/
structure LetThrough (m : BtMesh) (rx : TransRx) (m' : BtMesh) : Prop where
  isLocal : rx.localMatch = true
  fresh : (isReplay rx m.rpl).1 = false
  mesh : m' = { m with rpl := (isReplay rx m.rpl).2 }

/-- Either nothing is handed up and the list stays, or the message was let through. -/
def Outcome (m : BtMesh) (rx : TransRx) (m' : BtMesh) (r : SegResult) : Prop :=
  (m' = m ∧ ∀ call, r = .sduRecv call → call.localMatch = false) ∨ LetThrough m rx m'

/-- The same of what a function of the lower transport layer returns. -/
def SegOut.Keeps (out : SegOut) (m : BtMesh) (rx : TransRx) : Prop := Outcome m rx out.trans.mesh out.result

variable {cfg : TransCfg} {t : Trans} {m : BtMesh}

theorem outcome_fails {err : ℤ} : Outcome m rx m (.fails err) := .inl ⟨rfl, fun _ => SegResult.noConfusion⟩

/-- The test for a replay, in front of an SDU or a control message. -/
theorem outcome_tested {r : SegResult} (hr : ∀ call, r = .sduRecv call → call.localMatch = rx.localMatch)
    (h : ¬ (replayed rx m.rpl).1 = true) : Outcome m rx { m with rpl := (replayed rx m.rpl).2 } r := by
  rw [not_eq_true, replayed] at h
  unfold replayed
  cases hl : rx.localMatch with
  | false => exact .inl ⟨rfl, fun call hc => (hr call hc).trans hl⟩
  | true =>
    rw [hl] at h
    exact .inr ⟨hl, h, rfl⟩

variable {seqAuth i : Nat} {hdr b1 : UInt8} {h : SegHdr} {c : SegRx} {payload buf : List UInt8} {p : AirPdu}

theorem sduComplete_outcome : (sduComplete cfg t rx seqAuth hdr b1 h i c).Keeps t.mesh rx := by
  unfold sduComplete
  dsimp only
  split
  · exact outcome_fails
  next hfresh =>
    refine outcome_tested (fun call hc => ?_) hfresh
    dsimp only at hc
    split at hc
    · cases hc
    · cases hc
      rfl

theorem foundRx_outcome : (foundRx cfg t rx seqAuth hdr b1 h payload i c).Keeps t.mesh rx := by
  unfold foundRx
  split
  · exact outcome_fails
  split
  · exact outcome_fails
  split
  · exact outcome_fails
  split
  · exact .inl ⟨rfl, fun _ => SegResult.noConfusion⟩
  · exact sduComplete_outcome

theorem oldRx_outcome : (oldRx cfg t rx seqAuth hdr b1 h payload i c).Keeps t.mesh rx := by
  unfold oldRx
  split
  · exact outcome_fails
  split
  · exact outcome_fails
  split
  · exact foundRx_outcome
  split <;> exact outcome_fails

theorem newRx_outcome : (newRx cfg t rx seqAuth hdr b1 h payload).Keeps t.mesh rx := by
  unfold newRx
  split
  · exact outcome_fails
  dsimp only
  split
  · exact outcome_fails
  · exact foundRx_outcome (t := ⟨t.mesh, _⟩)

theorem transSeg_outcome : (transSeg cfg t rx buf).Keeps t.mesh rx := by
  unfold transSeg
  split
  · dsimp only
    split
    · exact outcome_fails
    · split
      · exact oldRx_outcome
      · exact newRx_outcome
  · exact outcome_fails

theorem transUnseg_outcome : Outcome t.mesh rx (transUnseg t rx buf).1.mesh (transUnseg t rx buf).2 := by
  cases buf with
  | nil => exact outcome_fails
  | cons hdr sdu =>
    unfold transUnseg
    dsimp only
    split
    · exact outcome_fails
    next hfresh =>
      split
      · exact outcome_tested (fun _ => SegResult.noConfusion) hfresh
      split
      · exact outcome_tested (fun _ => SegResult.noConfusion) hfresh
      · exact outcome_tested (fun _ hc => by cases hc; rfl) hfresh

theorem btMeshTransRecv_outcome : (btMeshTransRecv cfg t rx buf).Keeps t.mesh rx := by
  unfold btMeshTransRecv
  split
  · split
    · exact .inl ⟨rfl, fun _ => SegResult.noConfusion⟩
    · exact transSeg_outcome
  · exact transUnseg_outcome

theorem oldRx_over
    (hover : seqAuth < c.seqAuth ∨ c.inUse = false) (call : SduCall) :
    (oldRx cfg t rx seqAuth hdr b1 h payload i c).result ≠ .sduRecv call := by
  unfold oldRx
  split
  · exact SegResult.noConfusion
  next hle =>
    have hidle : c.inUse = false := hover.resolve_left hle
    rw [hidle]
    split
    · exact SegResult.noConfusion
    · rw [if_neg Bool.false_ne_true]
      split <;> exact SegResult.noConfusion

/-- What a context remembers is not handed up again. -/
theorem transSeg_remembered {pdu : AirPdu} {lm fm : Bool}
    (hiv : t.mesh.iviRx (pdu.oldIv t.mesh) = pdu.ivIndex) (h : remembers t pdu = true)
    (call : SduCall) : (transSeg cfg t (pdu.rx t.mesh lm fm) pdu.payload).result ≠ .sduRecv call := by
  unfold transSeg
  split
  next hdr b1 b2 b3 p payload heq =>
    have hauth : seqAuthOf (t.mesh.iviRx (pdu.rx t.mesh lm fm).oldIv)
      (firstSeq (pdu.rx t.mesh lm fm).seq (segHdr b1 b2 b3).seqZero) = pdu.seqAuth := by
      rw [AirPdu.seqAuth, heq]
      exact congrArg (seqAuthOf · _) hiv
    unfold remembers at h
    dsimp only at h ⊢
    split
    · exact SegResult.noConfusion
    · rw [hauth]
      split at h
      · cases h
      next i hfound =>
        rw [show (segRxFind (pdu.rx t.mesh lm fm).addr (pdu.rx t.mesh lm fm).recvDst pdu.seqAuth t.segRx).1 =
          some i from hfound]
        refine oldRx_over ?_ call
        rw [or_eq_true, decide_eq_true_iff, not_eq_true'] at h
        exact h
  · exact SegResult.noConfusion

/-! ## Over a run -/

/-- The message of the PDU would not be let through again. -/
def Covered (p : AirPdu) (m : BtMesh) : Prop :=
  p.ivIndex + 1 < m.ivIndex ∨ ∃ e ∈ m.rpl, e.src = p.src ∧ (p.ivIndex + e.oldIv.toNat < m.ivIndex ∨
      p.ivIndex + e.oldIv.toNat = m.ivIndex ∧ p.seq ≤ e.seq)

structure ReplayInv (s : ReplaySys) : Prop where
  ivIndex_lt : s.trans.mesh.ivIndex < 2 ^ 32
  rpl : RplOk s.trans.mesh.rpl
  sdu : ∀ a ∈ s.log, a.sdu = a.pdu.sdu
  ivIndex_le : ∀ a ∈ s.log, a.pdu.ivIndex ≤ s.trans.mesh.ivIndex
  covered : ∀ a ∈ s.log, Covered a.pdu s.trans.mesh
  nodup : (s.log.map HandedUp.sdu).Nodup

variable {s : ReplaySys} {pdu : AirPdu} {lm fm : Bool} {m' : BtMesh}

/-- The PDU has the index of the node, or the one before. -/
theorem ivIndex_of_accepted (hlt : m.ivIndex < 2 ^ 32) (hzero : m.ivIndex = 0 → pdu.ivIndex + 1 ≠ 2 ^ 32)
    (hiv : m.iviRx (pdu.oldIv m) = pdu.ivIndex) : pdu.ivIndex + (pdu.oldIv m).toNat = m.ivIndex := by
  unfold BtMesh.iviRx at hiv
  have hle := toNat_le (pdu.oldIv m)
  omega

/-- A message that is let through comes after all those of its source, and they stay listed. -/
theorem letThrough_after (hok : RplOk m.rpl) (hiv : pdu.ivIndex + (pdu.oldIv m).toNat = m.ivIndex)
    (h : LetThrough m (pdu.rx m lm fm) m') (hp : Covered p m) :
    Covered p m' ∧ (p.src = pdu.src → ¬ pdu.notAfter p) := by
  have hl : Listed (pdu.rx m lm fm) m.rpl m'.rpl := by
    rw [h.mesh]
    exact rplLoop_listed pdu.src_ne hok h.fresh
  have hidx : m'.ivIndex = m.ivIndex := by rw [h.mesh]
  have hbit := toNat_le (pdu.oldIv m)
  unfold Covered AirPdu.notAfter
  rw [hidx]
  rcases hp with hp | ⟨e, he, hsrc, hcov⟩
  · exact ⟨.inl hp, fun _ => by omega⟩
  · by_cases hsame : e.src = pdu.src
    · have hafter : p.ivIndex + (pdu.oldIv m).toNat < m.ivIndex ∨
        p.ivIndex + (pdu.oldIv m).toNat = m.ivIndex ∧ p.seq < pdu.seq := by
        rcases hl.newer e he hsame with ⟨hnew, hold⟩ | ⟨heq, hlt⟩
        · have hnew' : pdu.oldIv m = false := hnew
          rw [hold, toNat_true] at hcov
          rw [hnew', toNat_false]
          omega
        · have heq' : pdu.oldIv m = e.oldIv := heq
          have hlt' : e.seq < pdu.seq := hlt
          rw [heq']
          omega
      refine ⟨.inr ⟨_, hl.entry, hsame.symm.trans hsrc, ?_⟩, fun _ => by omega⟩
      change p.ivIndex + (pdu.oldIv m).toNat < m.ivIndex ∨ p.ivIndex + (pdu.oldIv m).toNat = m.ivIndex ∧ p.seq ≤ pdu.seq
      omega
    · exact ⟨.inr ⟨e, hl.others e he (hsrc ▸ p.src_ne) hsame, hsrc, hcov⟩, fun hc => absurd (hsrc.trans hc) hsame⟩

/-- The PDUs of one SDU have one source, and the PDU of an unsegmented one is itself. -/
theorem AirPdu.sdu_eq {q : AirPdu} (h : p.sdu = q.sdu) :
    p.src = q.src ∧ p.segmented = q.segmented ∧ (p.segmented = false → p.ivIndex = q.ivIndex ∧ p.seq = q.seq) := by
  unfold AirPdu.sdu at h
  cases hp : p.segmented <;> cases hq : q.segmented <;> rw [hp, hq] at h
  · obtain ⟨hsrc, -, hiv, hseq⟩ := SduId.unseg.inj h
    exact ⟨hsrc, rfl, fun _ => ⟨hiv, hseq⟩⟩
  · cases h
  · cases h
  · exact ⟨(SduId.seg.inj h).1, rfl, fun hc => Bool.noConfusion hc⟩

/-- The SDU of a message that is let through was not handed up before, unless a context remembers it. -/
theorem ReplayInv.fresh (h : ReplayInv s) (hgap : NoGap s (.recv pdu lm fm))
    (hafter : ∀ a ∈ s.log, a.pdu.src = pdu.src → ¬ pdu.notAfter a.pdu)
    (hseg : pdu.segmented = true → remembers s.trans pdu = false) : pdu.sdu ∉ s.log.map HandedUp.sdu := by
  intro hc
  obtain ⟨a, ha, heq⟩ := mem_map.1 hc
  obtain ⟨hsrc, hsegs, hsame⟩ := AirPdu.sdu_eq ((h.sdu a ha).symm.trans heq)
  refine hafter a ha hsrc ?_
  cases hs : pdu.segmented with
  | true =>
    refine (hgap.2 hs a ha heq).resolve_right fun hrem => ?_
    rw [hseg hs] at hrem
    cases hrem
  | false =>
    obtain ⟨hiv, hseq⟩ := hsame (hsegs.trans hs)
    exact .inr ⟨hiv.symm, Nat.le_of_eq hseq.symm⟩

/-- An IV update forgets only what has become too old. -/
theorem covered_updated (hle : p.ivIndex ≤ m.ivIndex) (hp : Covered p m) (hup : Updated m m') : Covered p m' := by
  cases hup with
  | begins hnormal hnext =>
    change p.ivIndex + 1 < m.ivIndex + 1 ∨ ∃ e ∈ m.rpl.map rplAge, _
    rcases hp with hp | ⟨e, he, hsrc, hcov⟩
    · exact .inl (by omega)
    · cases hold : e.oldIv with
      | true =>
        rw [hold, toNat_true] at hcov
        exact .inl (by omega)
      | false =>
        rw [hold, toNat_false] at hcov
        have hage : rplAge e = { e with oldIv := true } := by
          rw [rplAge, if_neg (hsrc ▸ p.src_ne), hold]
          rfl
        refine .inr ⟨rplAge e, mem_map_of_mem he, ?_⟩
        rw [hage]
        refine ⟨hsrc, ?_⟩
        change p.ivIndex + 1 < m.ivIndex + 1 ∨ p.ivIndex + 1 = m.ivIndex + 1 ∧ p.seq ≤ e.seq
        omega
  | ends hupdate => exact hp
  | @recovers i u hnormal hi hilt =>
    refine .inl ?_
    change p.ivIndex + 1 < i
    omega

/-- Only the index and the replay list matter here. -/
theorem ReplayInv.same (h : ReplayInv s) {t' : Trans} (hiv : t'.mesh.ivIndex = s.trans.mesh.ivIndex)
    (hrpl : t'.mesh.rpl = s.trans.mesh.rpl) :
    ReplayInv { s with trans := t' } := by
  refine ⟨hiv ▸ h.ivIndex_lt, hrpl ▸ h.rpl, h.sdu, fun a ha => hiv ▸ h.ivIndex_le a ha, fun a ha => ?_, h.nodup⟩
  rw [Covered, hiv, hrpl]
  exact h.covered a ha

theorem rplOk_aged (hok : RplOk rpl) (hold : OldLast rpl) : RplOk (rpl.map rplAge) := by
  induction rpl with
  | nil => trivial
  | cons e rpl ih =>
    obtain ⟨hlast, hold⟩ := pairwise_cons.1 hold
    have hfree : ∀ e' ∈ rpl, e'.src = 0 ∨ e'.oldIv = true → (rplAge e').src = 0 := by
      intro e' _ he'
      unfold rplAge
      split
      · assumption
      · rw [if_pos (he'.resolve_left ‹_›)]
        rfl
    rw [RplOk] at hok
    rw [map_cons, RplOk]
    by_cases hsrc : e.src = 0
    · rw [if_pos hsrc] at hok
      rw [if_pos (by rw [rplAge, if_pos hsrc]; exact hsrc)]
      exact forall_mem_map.2 fun e' he' => hfree e' he' (.inl (hok e' he'))
    rw [if_neg hsrc] at hok
    cases hiv : e.oldIv with
    | true =>
      rw [if_pos (by rw [rplAge, if_neg hsrc, hiv]; rfl)]
      exact forall_mem_map.2 fun e' he' => hfree e' he' (hlast e' he' hsrc hiv)
    | false =>
      have hage : (rplAge e).src = e.src := by rw [rplAge, if_neg hsrc, hiv]; rfl
      rw [hage, if_neg hsrc]
      refine ⟨forall_mem_map.2 fun e' he' => ?_, ih hok.2 hold⟩
      unfold rplAge
      split
      · exact hok.1 e' he'
      · split
        · exact Ne.symm hsrc
        · exact hok.1 e' he'

theorem ReplayInv.ivUpdate (h : ReplayInv s) (hi : i < 2 ^ 32) {u tx : Bool}
    (hold : BeginsUpdate s.trans.mesh i u → OldLast s.trans.mesh.rpl) :
    ReplayInv { s with trans := { s.trans with mesh := (btMeshNetIvUpdate s.trans.mesh i u tx).1 } } := by
  have hok : RplOk (btMeshNetIvUpdate s.trans.mesh i u tx).1.rpl := by
    rcases @btMeshNetIvUpdate_rpl s.trans.mesh i u tx hi with he | he | ⟨hb, he⟩ <;> rw [he]
    · exact h.rpl
    · exact rplOk_of_free (forall_mem_map.2 fun _ _ => rfl)
    · exact rplOk_aged h.rpl (hold hb)
  rcases btMeshNetIvUpdate_cases (m := s.trans.mesh) hi with (hs | hs) | hup
  · rw [hs]
    exact h
  · rw [hs]
    exact h.same rfl rfl
  · have hidx : s.trans.mesh.ivIndex ≤ (btMeshNetIvUpdate s.trans.mesh i u tx).1.ivIndex ∧
        (btMeshNetIvUpdate s.trans.mesh i u tx).1.ivIndex < 2 ^ 32 := by
      have hlt := h.ivIndex_lt
      generalize (btMeshNetIvUpdate s.trans.mesh i u tx).1 = m' at hup ⊢
      cases hup with
      | begins hnormal hnext => exact ⟨Nat.le_succ _, hnext⟩
      | ends hupdate => exact ⟨Nat.le_refl _, hlt⟩
      | @recovers i u hnormal hi hilt => exact ⟨Nat.le_of_lt (Nat.lt_of_succ_lt hi), hilt⟩
    exact ⟨hidx.2, hok, h.sdu, fun a ha => Nat.le_trans (h.ivIndex_le a ha) hidx.1,
      fun a ha => covered_updated (h.ivIndex_le a ha) (h.covered a ha) hup, h.nodup⟩

theorem logged_cases (pdu : AirPdu) (log : List HandedUp) (r : SegResult) :
    logged pdu log r = log ∨ (∃ call, r = .sduRecv call ∧ call.localMatch = true) ∧
    logged pdu log r = ⟨pdu.sdu, pdu⟩ :: log := by
  cases r with
  | sduRecv call =>
    cases hl : call.localMatch with
    | false => exact .inl (by rw [logged, hl]; rfl)
    | true => exact .inr ⟨⟨call, rfl, hl⟩, by rw [logged, hl]; rfl⟩
  | fails | ignored | partialPdu | ctlRecv => exact .inl rfl

theorem ReplayInv.recv (h : ReplayInv s) (hgap : NoGap s (.recv pdu lm fm)) : ReplayInv (recvPdu cfg s pdu lm fm) := by
  unfold recvPdu
  split
  next => exact h
  next hacc =>
    have hiv : s.trans.mesh.iviRx (pdu.oldIv s.trans.mesh) = pdu.ivIndex := not_not.1 hacc
    have hidx := ivIndex_of_accepted h.ivIndex_lt hgap.1 hiv
    have hout : (btMeshTransRecv cfg s.trans (pdu.rx s.trans.mesh lm fm) pdu.payload).Keeps _ _ :=
      btMeshTransRecv_outcome
    have hrem : pdu.segmented = true → remembers s.trans pdu = true → ∀ call,
        (btMeshTransRecv cfg s.trans (pdu.rx s.trans.mesh lm fm) pdu.payload).result ≠ .sduRecv call := by
      intro hseg hr call
      have hbit : (pdu.payload.headD 0).toNat.testBit 7 = true := hseg
      rw [btMeshTransRecv, if_pos hbit]
      split
      · exact SegResult.noConfusion
      · exact transSeg_remembered hiv hr call
    dsimp only
    generalize btMeshTransRecv cfg s.trans (pdu.rx s.trans.mesh lm fm) pdu.payload = out at hout hrem ⊢
    rcases hout with ⟨hmesh, hnone⟩ | hlet
    · have hlog : logged pdu s.log out.result = s.log := by
        refine (logged_cases pdu s.log out.result).resolve_right ?_
        rintro ⟨⟨call, hr, hl⟩, -⟩
        exact false_ne_true ((hnone call hr).symm.trans hl)
      rw [hlog]
      exact h.same (congrArg BtMesh.ivIndex hmesh) (congrArg BtMesh.rpl hmesh)
    · have hafter : ∀ a ∈ s.log, Covered a.pdu out.trans.mesh ∧ (a.pdu.src = pdu.src → ¬ pdu.notAfter a.pdu) :=
        fun a ha => letThrough_after h.rpl hidx hlet (h.covered a ha)
      have hl : Listed (pdu.rx s.trans.mesh lm fm) s.trans.mesh.rpl out.trans.mesh.rpl := by
        rw [hlet.mesh]
        exact rplLoop_listed pdu.src_ne h.rpl hlet.fresh
      have hidx' : out.trans.mesh.ivIndex = s.trans.mesh.ivIndex := by rw [hlet.mesh]
      have hsame : ReplayInv { s with trans := out.trans } :=
        ⟨hidx' ▸ h.ivIndex_lt, hl.ok, h.sdu, fun a ha => hidx' ▸ h.ivIndex_le a ha,
          fun a ha => (hafter a ha).1, h.nodup⟩
      rcases logged_cases pdu s.log out.result with hlog | ⟨⟨call, hr, -⟩, hlog⟩
      · rw [hlog]
        exact hsame
      · have hfresh := h.fresh hgap (fun a ha => (hafter a ha).2) fun hseg => by
          cases hm : remembers s.trans pdu with
          | false => rfl
          | true => exact absurd hr (hrem hseg hm call)
        have hcov : Covered pdu out.trans.mesh :=
          .inr ⟨_, hl.entry, rfl, .inr ⟨hidx.trans hidx'.symm, Nat.le_refl _⟩⟩
        rw [hlog]
        refine ⟨hsame.ivIndex_lt, hsame.rpl, forall_mem_cons.2 ⟨rfl, h.sdu⟩, forall_mem_cons.2 ⟨?_, hsame.ivIndex_le⟩,
          forall_mem_cons.2 ⟨hcov, hsame.covered⟩, nodup_cons.2 ⟨hfresh, h.nodup⟩⟩
        exact Nat.le_trans (Nat.le_of_add_right_le (Nat.le_of_eq hidx)) (Nat.le_of_eq hidx'.symm)

theorem ReplayInv.refresh (h : ReplayInv s) (mcfg : MeshCfg) (tx : Bool) :
    ReplayInv { s with trans := { s.trans with mesh := ivuRefresh mcfg s.trans.mesh tx } } := by
  have hdur : ReplayInv { s with trans := { s.trans with
      mesh := { s.trans.mesh with ivuDuration := (s.trans.mesh.ivuDuration + mcfg.ivuHours) % 2 ^ 8 } } } :=
      h.same rfl rfl
  unfold ivuRefresh
  dsimp only
  split
  · exact h.same rfl rfl
  split
  next hup =>
    -- only the end of an update is left, and it keeps the list
    exact hdur.ivUpdate h.ivIndex_lt fun hbegins => absurd (hbegins.1.symm.trans hup) Bool.false_ne_true
  · exact h.same rfl rfl

theorem segAck_mesh {expired : Bool} : (segAck cfg t i expired).1.mesh = t.mesh := by
  unfold segAck
  split
  · rfl
  · split <;> rfl

theorem replayStep_inv {mcfg : MeshCfg} {op : ReplayOp} (h : ReplayInv s) (hok : NoGap s op) :
    ∃ s', replayStep cfg mcfg s op = some s' ∧ ReplayInv s' := by
  cases op with
  | recv pdu lm fm => exact ⟨_, rfl, h.recv hok⟩
  | ivUpdate i u tx => exact ⟨_, rfl, h.ivUpdate i.toNat_lt hok⟩
  | ivUpdateTest enable => exact ⟨_, rfl, h.same rfl rfl⟩
  | ivuRefresh tx => exact ⟨_, rfl, h.refresh mcfg tx⟩
  | segAck i expired => exact ⟨_, rfl, h.same (congrArg BtMesh.ivIndex segAck_mesh) (congrArg BtMesh.rpl segAck_mesh)⟩

/-- **Each SDU is handed up once at most**, whatever is sent again and in whatever order, as long as no gap opens
in the replay list and no later segment of an SDU completes it again. -/
theorem sdus_once {mcfg : MeshCfg} {ops : List ReplayOp} (hiv : t.mesh.ivIndex < 2 ^ 32) (hrpl : RplOk t.mesh.rpl)
    (hall : Runs.Along (replayStep cfg mcfg) NoGap ⟨t, []⟩ ops) :
    ∃ s, Runs.run (replayStep cfg mcfg) ⟨t, []⟩ ops = some s ∧ (s.log.map HandedUp.sdu).Nodup := by
  have hinv : ReplayInv ⟨t, []⟩ :=
    ⟨hiv, hrpl, by simp, by simp, by simp, nodup_nil⟩
  obtain ⟨s, hrun, h⟩ := Runs.run_total (fun _ _ => replayStep_inv) hinv hall
  exact ⟨s, hrun, h.nodup⟩

/-! ## A node with room for three sources and for one SDU in segments -/

def smallTransCfg : TransCfg := ⟨36, false⟩

def smallTrans : Trans :=
  ⟨⟨0, 0, false, false, ivuMinHours, false, false, false, List.replicate 3 .free⟩,
    [{ (default : SegRx) with data := List.replicate 36 0 }]⟩

/-- An unsegmented message of the source to the node's address 9. -/
def shortPdu (ivIndex seq src : Nat) (h : src ≠ 0) : AirPdu := ⟨ivIndex, seq, src, 9, false, [0x40, 1, 2, 3, 4, 5], h⟩

/-- Four rounds of the timer: the 96 hours that a state lasts. -/
def fourDays : List ReplayOp := List.replicate 4 (.ivuRefresh false)

/-- Segment `o` of a message of two segments whose first number is 10, sent with the number `seq`. -/
def longPdu (seq o : Nat) : AirPdu :=
    ⟨0, seq, 1, 9, false, segment 0x80 false 10 1 (List.range 20 |>.map UInt8.ofNat) o, by decide⟩

theorem sdus_once_sentAgain :
    ∃ s, Runs.run (replayStep smallTransCfg ⟨128, 24⟩) ⟨smallTrans, []⟩
        [.recv (shortPdu 0 1 1 (by decide)) true false, .recv (shortPdu 0 1 1 (by decide)) true false,
          .recv (longPdu 10 0) true false,
          .recv (longPdu 11 1) true false, .recv (longPdu 13 1) true false, .ivUpdate 1 true false,
          .recv (shortPdu 0 1 1 (by decide)) true false] = some s ∧ (s.log.map HandedUp.sdu).Nodup :=
  sdus_once (by decide) (by decide) (by decide +kernel)

/-- Sources 1 and 2 are listed, then an IV update makes the entries old, and source 2 sends again. The next IV
update clears the entry of source 1: the last message of source 2 finds that one free and comes through once more. -/
theorem hole_hides_entry :
    ((Runs.run (replayStep smallTransCfg ⟨128, 24⟩) ⟨smallTrans, []⟩
      ([.recv (shortPdu 0 1 1 (by decide)) true false, .recv (shortPdu 0 1 2 (by decide)) true false,
        .ivUpdate 1 true false] ++ fourDays ++
        [.recv (shortPdu 1 5 2 (by decide)) true false] ++ fourDays ++
        [.ivUpdate 2 true false, .recv (shortPdu 1 5 2 (by decide)) true false])).map fun s =>
      decide ((s.log.map HandedUp.sdu).take 2 = [.unseg 2 9 1 5, .unseg 2 9 1 5])) = some true := by
  decide +kernel

/-- The message of two segments is listed under the number 11. Its second segment was sent again, with the number
13. When another message has taken the context, the two segments complete the message again. -/
theorem resent_completes_again :
    ((Runs.run (replayStep smallTransCfg ⟨128, 24⟩) ⟨smallTrans, []⟩
      [.recv (longPdu 10 0) true false, .recv (longPdu 11 1) true false,
        .recv ⟨0, 7, 2, 9, false, segment 0x80 false 7 0 [1, 2, 3, 4, 5] 0, by decide⟩ true false,
        .recv (longPdu 10 0) true false, .recv (longPdu 13 1) true false]).map fun s =>
      decide (s.log.map HandedUp.sdu = [.seg 1 9 10, .seg 2 9 7, .seg 1 9 10])) = some true := by
  decide +kernel

end Zephyr
