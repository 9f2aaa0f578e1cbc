import Zephyr.Kernel.Api
import Zephyr.Mesh.IvUpdate
/-!
# Lower transport layer of Bluetooth mesh (subsys/bluetooth/host/mesh/transport.c)

Numbers are `Nat` with the width of the C type where it can be exceeded.
-/
namespace Zephyr

def ealready : ℤ := -69

structure TransCfg where
  rxSduMax : Nat
  lpnEstablished : Bool

structure TransRx where
  netLocal : Bool
  addr : Nat
  recvDst : Nat
  seq : Nat
  oldIv : Bool
  ctl : Bool
  localMatch : Bool
  friendMatch : Bool
deriving DecidableEq

structure SegRx where
  seqAuth : Nat
  segN : Nat
  ctl : Bool
  inUse : Bool
  obo : Bool
  hdr : UInt8
  src : Nat
  dst : Nat
  block : Nat
  data : List UInt8
  len : Nat
deriving DecidableEq, Inhabited

structure Trans where
  mesh : BtMesh
  segRx : List SegRx
deriving DecidableEq

structure SduCall where
  src : Nat
  dst : Nat
  ivIndex : Nat
  seq : Nat
  hdr : UInt8
  aszmic : Bool
  localMatch : Bool
  sdu : List UInt8
deriving DecidableEq

structure SegAck where
  src : Nat
  dst : Nat
  seqZero : Nat
  block : Nat
  obo : Bool
deriving DecidableEq

/-! ## The replay list -/

/-- The loop of `is_replay`: whether it is one, and the list. -/
def rplLoop (rx : TransRx) : List Rpl → Bool × List Rpl
  | [] => (true, [])
  | e :: rpl =>
    if e.src = 0 then (false, ⟨rx.addr, rx.oldIv, rx.seq⟩ :: rpl)
    else if e.src = rx.addr then
      if rx.oldIv && !e.oldIv then (true, e :: rpl)
      else if (!rx.oldIv && e.oldIv) || e.seq < rx.seq then (false, { e with seq := rx.seq, oldIv := rx.oldIv } :: rpl)
      else (true, e :: rpl)
    else ((rplLoop rx rpl).1, e :: (rplLoop rx rpl).2)

def isReplay (rx : TransRx) (rpl : List Rpl) : Bool × List Rpl := if rx.netLocal then (false, rpl) else rplLoop rx rpl

/-- `net_rx->local_match && is_replay(net_rx)` -/
def replayed (rx : TransRx) (rpl : List Rpl) : Bool × List Rpl :=
    if rx.localMatch then isReplay rx rpl else (false, rpl)

/-! ## Acknowledgements -/

def sendAck (cfg : TransCfg) (src dst seqAuth block : Nat) (obo : Bool) : List SegAck :=
  if cfg.lpnEstablished then [] else
  -- a message to a group or a virtual address
  if ¬ (src ≠ 0 ∧ src < 0x8000) then [] else
  [⟨src, dst, seqAuth % 2 ^ 13, block, obo⟩]

/-- `BLOCK_COMPLETE` -/
def blockComplete (segN : Nat) : Nat := 2 ^ (segN + 1) - 1

/-- `SEQ_AUTH` -/
def seqAuthOf (ivIndex seq : Nat) : Nat := ivIndex * 2 ^ 24 ||| seq

def segRxReset (c : SegRx) (full : Bool) : SegRx :=
  if full then { c with inUse := false, seqAuth := 0, src := 0, dst := 0 } else { c with inUse := false }

/-- The timer of context `i`: the incomplete timer has expired, or the acknowledgement is sent. -/
def segAck (cfg : TransCfg) (t : Trans) (i : Nat) (expired : Bool) : Trans × List SegAck :=
  match t.segRx[i]? with
  | none => (t, [])
  | some c =>
    if expired then ({ t with segRx := t.segRx.set i (segRxReset c false) }, [])
    else (t, sendAck cfg c.dst c.src c.seqAuth c.block c.obo)

/-! ## Reassembly -/

def segLen (ctl : Bool) : Nat := if ctl then 8 else 12

def sduLenIsOk (cfg : TransCfg) (ctl : Bool) (segN : Nat) : Bool := segN * segLen ctl + 1 ≤ cfg.rxSduMax

/-- The context found and the contexts left: an older one of the same source and destination is cleared. -/
def segRxFind (addr recvDst seqAuth : Nat) : List SegRx → Option Nat × List SegRx
  | [] => (none, [])
  | c :: cs =>
    if c.src = addr ∧ c.dst = recvDst ∧ seqAuth ≤ c.seqAuth then (some 0, c :: cs)
    else if c.src = addr ∧ c.dst = recvDst ∧ c.inUse then (none, segRxReset c true :: cs)
    else ((segRxFind addr recvDst seqAuth cs).1.map (· + 1), c :: (segRxFind addr recvDst seqAuth cs).2)

def segRxIsValid (c : SegRx) (rx : TransRx) (hdr : UInt8) (segN : Nat) : Bool :=
  c.hdr = hdr ∧ c.segN = segN ∧ c.src = rx.addr ∧ c.dst = rx.recvDst ∧ c.ctl = rx.ctl

def segRxAlloc (rx : TransRx) (hdr : UInt8) (seqAuth segN : Nat) : List SegRx → Option Nat × List SegRx
  | [] => (none, [])
  | c :: cs =>
    if c.inUse then
      ((segRxAlloc rx hdr seqAuth segN cs).1.map (· + 1), c :: (segRxAlloc rx hdr seqAuth segN cs).2)
    else
      -- `obo` is set behind the call (:1265)
      (some 0, { c with
        inUse := true, len := 0, ctl := rx.ctl, seqAuth := seqAuth, segN := segN, hdr := hdr, src :=
        rx.addr, dst := rx.recvDst
        block := 0, obo := rx.friendMatch } :: cs)

/-- `SegO`, `SegN` and `SeqZero` of a segment. -/
structure SegHdr where
  seqZero : Nat
  segO : Nat
  segN : Nat
deriving DecidableEq

def segHdr (b1 b2 b3 : UInt8) : SegHdr :=
  let v := b1.toNat * 256 + b2.toNat
  ⟨(v >>> 2) % 2 ^ 13, (v % 4) <<< 3 ||| b3.toNat >>> 5, b3.toNat % 32⟩

/-- `memcpy(data + off, b, len)` -/
def copyAt (data : List UInt8) (off : Nat) (b : List UInt8) : List UInt8 :=
    data.take off ++ b ++ data.drop (off + b.length)

/-- What `trans_seg` and `trans_unseg` come to: an error, nothing to do, a segment kept, a control message or an
SDU complete. -/
inductive SegResult where
  | fails (err : ℤ)
  | ignored
  | partialPdu
  | ctlRecv
  | sduRecv (call : SduCall)
deriving DecidableEq

structure SegOut where
  trans : Trans
  result : SegResult
  acks : List SegAck
deriving DecidableEq

/-- `BT_MESH_NET_IVI_RX` -/
def BtMesh.iviRx (m : BtMesh) (oldIv : Bool) : Nat := (m.ivIndex + 2 ^ 32 - oldIv.toNat) % 2 ^ 32

/-- The number of the first segment, out of that of another one and the 13 bits of SeqZero (:1207). -/
def firstSeq (seq seqZero : Nat) : Nat := (seq + 2 ^ 32 - (seq % 2 ^ 14 + 2 ^ 32 - seqZero) % 2 ^ 13) % 2 ^ 32

/-- The context with the segment in its place (:1286-1311). -/
def SegRx.keep (c : SegRx) (h : SegHdr) (payload : List UInt8) : SegRx :=
  { c with
    len := if h.segO = h.segN then h.segN * segLen c.ctl + payload.length else c.len
    data := copyAt c.data (h.segO * segLen c.ctl) payload
    block := c.block ||| 2 ^ h.segO }

section

variable (cfg : TransCfg) (t : Trans) (rx : TransRx) (seqAuth : Nat) (hdr b1 : UInt8) (h : SegHdr)

/-- All segments are there (:1318-1345). -/
def sduComplete (i : Nat) (c : SegRx) : SegOut :=
  if (replayed rx t.mesh.rpl).1 then
    ⟨{ t with segRx := t.segRx.set i { c with block := c.block &&& (2 ^ 32 - 1 - 2 ^ h.segO) } }, .fails einval, []⟩
  else
    ⟨{ mesh := { t.mesh with rpl := (replayed rx t.mesh.rpl).2 }, segRx := t.segRx.set i (segRxReset c false) },
      if rx.ctl then .ctlRecv
      else .sduRecv ⟨rx.addr, rx.recvDst, t.mesh.iviRx rx.oldIv, c.seqAuth % 2 ^ 24, hdr, b1.toNat.testBit 7,
        rx.localMatch, c.data.take c.len⟩, sendAck cfg rx.recvDst rx.addr seqAuth c.block c.obo⟩

def foundRx (payload : List UInt8) (i : Nat) (c : SegRx) : SegOut :=
  if c.block.testBit h.segO then ⟨t, .fails ealready, []⟩
  else if h.segO = h.segN ∧ cfg.rxSduMax < h.segN * segLen c.ctl + payload.length then
    ⟨{ t with segRx := t.segRx.set i (segRxReset { c with len := h.segN * segLen c.ctl + payload.length } true) },
      .fails emsgsize, sendAck cfg rx.recvDst rx.addr seqAuth 0 c.obo⟩
  else if h.segO ≠ h.segN ∧ payload.length ≠ segLen c.ctl then ⟨t, .fails einval, []⟩
  else if (c.keep h payload).block ≠ blockComplete h.segN then
    ⟨{ t with segRx := t.segRx.set i (c.keep h payload) }, .partialPdu, []⟩
  else sduComplete cfg t rx seqAuth hdr b1 h i (c.keep h payload)

/-- An old context for the segment (:1217-1248). -/
def oldRx (payload : List UInt8) (i : Nat) (c : SegRx) : SegOut :=
  if seqAuth < c.seqAuth then ⟨t, .fails einval, []⟩
  else if !segRxIsValid c rx hdr h.segN then ⟨t, .fails einval, []⟩
  else if c.inUse then foundRx cfg t rx seqAuth hdr b1 h payload i c
  else if c.block = blockComplete c.segN then ⟨t, .fails ealready, sendAck cfg rx.recvDst rx.addr seqAuth c.block c.obo⟩
  else ⟨t, .fails einval, []⟩

/-- A new one (:1250-1265). -/
def newRx (payload : List UInt8) : SegOut :=
  if !sduLenIsOk cfg rx.ctl h.segN then ⟨t, .fails emsgsize,
    sendAck cfg rx.recvDst rx.addr seqAuth 0 rx.friendMatch⟩ else
  let alloc := segRxAlloc rx hdr seqAuth h.segN t.segRx
  match alloc.1 with
  | none => ⟨t, .fails enomem, []⟩
  | some i => foundRx cfg { t with segRx := alloc.2 } rx seqAuth hdr b1 h payload i (alloc.2.getD i default)

end

def transSeg (cfg : TransCfg) (t : Trans) (rx : TransRx) : List UInt8 → SegOut
  | hdr :: b1 :: b2 :: b3 :: p :: payload =>
    let h := segHdr b1 b2 b3
    if h.segN < h.segO then ⟨t, .fails einval, []⟩ else
    let seqAuth := seqAuthOf (t.mesh.iviRx rx.oldIv) (firstSeq rx.seq h.seqZero)
    let found := segRxFind rx.addr rx.recvDst seqAuth t.segRx
    match found.1 with
    | some i => oldRx cfg { t with segRx := found.2 } rx seqAuth hdr b1 h (p :: payload) i (found.2.getD i default)
    | none => newRx cfg { t with segRx := found.2 } rx seqAuth hdr b1 h (p :: payload)
  | _ => ⟨t, .fails einval, []⟩

/-! ## Unsegmented messages -/

def transUnseg (t : Trans) (rx : TransRx) : List UInt8 → Trans × SegResult
  | [] => (t, .fails einval)
  | hdr :: sdu =>
    if (replayed rx t.mesh.rpl).1 then (t, .fails einval) else
    let t := { t with mesh := { t.mesh with rpl := (replayed rx t.mesh.rpl).2 } }
    if rx.ctl then (t, .ctlRecv)
    else if !rx.localMatch ∧ !rx.friendMatch then (t, .ignored)
    else (t, .sduRecv ⟨rx.addr, rx.recvDst, t.mesh.iviRx rx.oldIv, rx.seq, hdr, false, rx.localMatch, sdu⟩)

/-- The transport PDU of a network PDU; the first bit tells segmented ones. -/
def btMeshTransRecv (cfg : TransCfg) (t : Trans) (rx : TransRx) (buf : List UInt8) : SegOut :=
  if (buf.headD 0).toNat.testBit 7 then
    if !rx.localMatch ∧ !rx.friendMatch then ⟨t, .ignored, []⟩ else transSeg cfg t rx buf
  else ⟨(transUnseg t rx buf).1, (transUnseg t rx buf).2, []⟩

/-! ## Segmentation -/

/-- Segment `segO` of an SDU (:381-393): twelve of its bytes behind the header. -/
def segment (hdr : UInt8) (aszmic : Bool) (seqZero segN : Nat) (sdu : List UInt8) (segO : Nat) : List UInt8 :=
  [hdr, UInt8.ofNat (aszmic.toNat <<< 7 ||| seqZero >>> 6), UInt8.ofNat ((seqZero % 64) <<< 2 ||| segO >>> 3),
    UInt8.ofNat ((segO % 8) <<< 5 ||| segN)] ++ (sdu.drop (segO * 12)).take 12

end Zephyr
