import Zephyr.Net.CoapBuild
/-!
# Parsing a CoAP packet (subsys/net/lib/coap/coap.c:78-364, :1126-1265)

An error leaves nothing to look at: what has been written into the places by then is not modelled. `opt_len` of the
parser is an `u16_t` to which sizes are added; it is reduced once at the end. In the packet it is an `u8_t`
(coap.c:361).

A last option without a value is passed over without being stored (coap.c:204-208).
-/
namespace Zephyr

open Chunks List

structure CoapRx where
  frag : List NetBuf
  offset : Nat
  hdrLen : Nat
  optLen : Nat
deriving DecidableEq

structure CoapOption where
  delta : Nat
  len : Nat
  value : List UInt8
deriving DecidableEq

structure OptionContext where
  delta : Nat
  frag : List NetBuf
  offset : Nat
deriving DecidableEq

def checkFragReadStatus (frag : List NetBuf) (offset : Nat) : Ret Bool :=
  if frag = [] ∧ offset = 0xffff then throw einval
  else if frag = [] ∧ offset = 0 then pure false
  else pure true

def OptionContext.read (context : OptionContext) (len : Nat)
    (data : Bool) : Ret (Bool × List UInt8 × OptionContext) := do
  let r ← ExceptT.lift (netFragRead context.frag context.offset len data)
  let more ← checkFragReadStatus r.frag r.pos
  pure (more, r.data, { context with frag := r.frag, offset := r.pos })

def optionHeaderGetDelta (opt : UInt8) : Nat := ((opt &&& 0xf0) >>> 4).toNat

def optionHeaderGetLen (opt : UInt8) : Nat := (opt &&& 0x0f).toNat

/-- With what it returns: the value, and the size of the extension. -/
def decodeDelta (context : OptionContext) (opt : Nat) : Ret (Bool × OptionContext × Nat × Nat) :=
  if opt = 13 then do
    let (more, v, context) ← context.read 1 true
    pure (more, context, (v.getD 0 0).toNat + 13, 1)
  else if opt = 14 then do
    let (more, v, context) ← context.read 2 true
    pure (more, context, ((be16 v).toNat + 269) % 2 ^ 16, 2)
  else if opt = 15 then throw einval
  else pure (false, context, opt, 0)

def parseDelta (more : Bool) (context : OptionContext) (delta len optLen : Nat) :
    Ret (Bool × OptionContext × Nat × Nat) :=
  if 12 < delta then
    if more then do
      let (more, context, delta, hdrLen) ← decodeDelta context delta
      if more = false ∧ 12 < len then throw einval else pure (more, context, delta, optLen + hdrLen)
    else throw einval
  else pure (more, context, delta, optLen)

def parseLen (more : Bool) (context : OptionContext) (len optLen : Nat) : Ret (Bool × OptionContext × Nat × Nat) :=
  if 12 < len then do
    let (more, context, len, hdrLen) ← decodeDelta context len
    pure (more, context, len, optLen + hdrLen)
  else pure (more, context, len, optLen)

structure Parsed where
  more : Bool
  context : OptionContext
  option : Option CoapOption
  optLen : Nat
deriving DecidableEq

def parseValue (more : Bool) (context : OptionContext) (option : Option CoapOption) (delta len optLen : Nat) :
    Ret Parsed :=
  let number := (context.delta + delta) % 2 ^ 16
  if more then
    match option with
    | some o =>
      if o.value.length < len then throw enomem
      else do
        let (more, v, context) ← context.read len true
        pure ⟨more, { context with delta := number }, some ⟨number, len, v ++ o.value.drop len⟩, optLen + len⟩
    | none => do
      let (more, _, context) ← context.read len false
      pure ⟨more, { context with delta := number }, none, optLen + len⟩
  else if len = 0 then pure ⟨false, { context with delta := number }, option, optLen⟩
  else throw einval

def parseOption (context : OptionContext) (option : Option CoapOption) (optLen : Nat) : Ret Parsed := do
  let (more, v, context) ← context.read 1 true
  let opt := v.getD 0 0
  if opt = coapMarker then
    -- a packet with a marker but no payload is malformed
    if more then pure ⟨false, context, option, optLen + 1⟩ else throw einval
  else
    let (more, context, delta, optLen) ← parseDelta more context (optionHeaderGetDelta opt)
      (optionHeaderGetLen opt) (optLen + 1)
    let (more, context, len, optLen) ← parseLen more context (optionHeaderGetLen opt) optLen
    parseValue more context option delta len optLen

/-- The places not used yet are those from the head on. -/
def parseLoop : Nat → OptionContext → List CoapOption → Nat → Ret (List CoapOption × Nat)
  | 0, _, _, _ => ExceptT.mk none
  | fuel + 1, context, options, optLen => do
    let p ← parseOption context options.head? optLen
    if p.more then
      let (rest, optLen) ← parseLoop fuel p.context options.tail p.optLen
      pure (p.option.toList ++ rest, optLen)
    else pure (p.option.toList ++ options.tail, p.optLen)

def parseOptions (fuel : Nat) (frag : List NetBuf) (offset hdrLen : Nat)
    (options : List CoapOption) : Ret (List CoapOption × Nat) := do
  let (more, _, context) ← OptionContext.read ⟨0, frag, offset⟩ hdrLen false
  if more then
    let (options, optLen) ← parseLoop fuel context options 0
    pure (options, optLen % 2 ^ 16)
  else pure (options, 0)

def getHeaderTkl (frag : List NetBuf) (offset : Nat) : Ret Nat := do
  let r ← ExceptT.lift (netFragRead frag offset 1 true)
  pure (r.data.getD 0 0 &&& 0xf).toNat

def getHeaderLen (frag : List NetBuf) (offset : Nat) : Ret Nat :=
  let len := ((bytes frag).length - offset) % 2 ^ 16
  if len < 4 then throw einval
  else do
    let tkl ← getHeaderTkl frag offset
    if 8 < tkl ∨ len < 4 + tkl then throw einval else pure (4 + tkl)

def netUdphLen : Nat := 8

def coapPacketParse (pkt : List NetBuf) (ipHdrLen ipv6ExtLen : Nat) (options : List CoapOption) :
    Ret (CoapRx × List CoapOption) :=
  if pkt = [] then throw einval
  else do
    let (more, _, context) ← OptionContext.read ⟨0, pkt, 0⟩ (ipHdrLen + netUdphLen + ipv6ExtLen) false
    if more then
      let hdrLen ← getHeaderLen context.frag context.offset
      let (options, ret) ← ExceptT.adapt (fun _ => einval)
        (parseOptions ((bytes pkt).length + 1) context.frag context.offset hdrLen options)
      pure (⟨context.frag, context.offset, hdrLen, ret % 2 ^ 8⟩, options)
    else pure (⟨context.frag, context.offset, 0, 0⟩, options)

def coapHeaderGetVersion (cpkt : CoapRx) : Option UInt8 := do
  let r ← netFragRead cpkt.frag cpkt.offset 1 true
  if r.frag = [] ∧ r.pos = 0xffff then some 0 else some ((r.data.getD 0 0 &&& 0xc0) >>> 6)

def coapHeaderGetType (cpkt : CoapRx) : Option UInt8 := do
  let r ← netFragRead cpkt.frag cpkt.offset 1 true
  if r.frag = [] ∧ r.pos = 0xffff then some 0 else some ((r.data.getD 0 0 &&& 0x30) >>> 4)

/-- `__coap_header_get_code` (coap.c:1147). -/
def coapHeaderGetCodeByte (cpkt : CoapRx) : Option UInt8 := do
  let s ← netFragSkip cpkt.frag cpkt.offset 1
  let r ← netFragRead s.frag s.pos 1 true
  if r.frag = [] ∧ r.pos = 0xffff then some 0 else some (r.data.getD 0 0)

/-- `COAP_CODE_EMPTY`, the methods and the response codes (coap.h:71-148). -/
def coapCodes : List UInt8 :=
  [0, 1, 2, 3, 4, 64, 65, 66, 67, 68, 69, 95, 128, 129, 130, 131, 132, 133, 134, 136, 140, 141, 143, 160, 161,
    162, 163, 164, 165]

/-- A code that is not defined is taken for `COAP_CODE_EMPTY`. -/
def coapHeaderGetCode (cpkt : CoapRx) : Option UInt8 :=
  (coapHeaderGetCodeByte cpkt).map fun code => if code ∈ coapCodes then code else 0

def coapHeaderGetId (cpkt : CoapRx) : Option UInt16 := do
  let s ← netFragSkip cpkt.frag cpkt.offset 2
  let r ← netFragRead s.frag s.pos 2 true
  if r.frag = [] ∧ r.pos = 0xffff then some 0 else some (be16 r.data)

/-- The bytes of the token; their number is what it returns. -/
def coapHeaderGetToken (cpkt : CoapRx) : Option (List UInt8) := do
  let t ← netFragRead cpkt.frag cpkt.offset 1 true
  let tkl := (t.data.getD 0 0 &&& 0xf).toNat
  if tkl = 0 then some []
  else
    let s ← netFragSkip cpkt.frag cpkt.offset 4
    let r ← netFragRead s.frag s.pos tkl true
    if r.frag = [] ∧ r.pos = 0xffff then some [] else some r.data

/-- Where the payload is, and its length. -/
def coapPacketGetPayload (pkt : List NetBuf) (ipHdrLen ipv6ExtLen : Nat)
    (cpkt : CoapRx) : Option (ReadResult × Nat) := do
  let coapPktLen := ((bytes pkt).length - ipHdrLen - ipv6ExtLen - netUdphLen) % 2 ^ 16
  let r ← netFragSkip cpkt.frag cpkt.offset (cpkt.hdrLen + cpkt.optLen)
  some (r, (coapPktLen + 2 ^ 16 - cpkt.hdrLen - cpkt.optLen) % 2 ^ 16)

/-! ## One option -/

section

variable {c : List NetBuf} {context : OptionContext} {d rest value : List UInt8} {delta len n : Nat}

/-- Where the context stands: `rest` is to come. -/
def OptionContext.At (c : List NetBuf) (context : OptionContext) (rest : List UInt8) : Prop :=
  Before c context.frag context.offset rest

theorem OptionContext.read_spec (data : Bool) (hwhole : Whole c d.length rest.length) (hat : context.At c (d ++ rest))
    (hd : d ++ rest ≠ []) :
    ∃ context' v, context.read d.length data = pure (moreAt c rest, v, context') ∧ (data = true → v = d) ∧
      context'.delta = context.delta ∧ context'.At c rest := by
  obtain ⟨r, hr, hdata, hrest, hthere, hend⟩ := netFragRead_before data hwhole hat hd
  refine ⟨⟨context.delta, r.frag, r.pos⟩, r.data, ?_, hdata, rfl, hrest⟩
  have hlift : ExceptT.lift (netFragRead context.frag context.offset d.length data) = (pure r : Ret ReadResult) := by
    rw [hr]
    rfl
  have hstatus : checkFragReadStatus r.frag r.pos = pure (moreAt c rest) := by
    rw [checkFragReadStatus, if_neg hthere]
    cases hmore : moreAt c rest with
    | false => exact if_pos (hend.2 hmore)
    | true => exact if_neg fun h => absurd ((hend.1 h).symm.trans hmore) Bool.false_ne_true
  rw [OptionContext.read, hlift, pure_bind, hstatus, pure_bind]

theorem OptionContext.read_cursor {data more : Bool} {v : List UInt8} {context' : OptionContext}
    (h : context.read n data = pure (more, v, context')) :
    ∃ r, netFragRead context.frag context.offset n data = some r ∧ context'.frag = r.frag ∧
      context'.offset = r.pos := by
  obtain ⟨r, hr, h⟩ := Ret.of_bind_eq_pure h
  obtain ⟨_, -, h⟩ := Ret.of_bind_eq_pure h
  cases h
  generalize netFragRead context.frag context.offset n data = read at hr ⊢
  obtain _ | s := read
  · cases hr
  · cases hr
    exact ⟨_, rfl, rfl, rfl⟩

theorem OptionContext.read_end (hat : context.At c []) (n : Nat) (data : Bool) :
    context.read n data = throw einval := by
  rw [OptionContext.read, netFragRead_end hat]
  rfl

/-- No empty buffer is inside of a part of the option that is read at once. -/
structure WholeOption (c : List NetBuf) (delta : Nat) (value rest : List UInt8) : Prop where
  delta : Whole c (optExtension delta).length (optExtension value.length ++ (value ++ rest)).length
  len : Whole c (optExtension value.length).length (value ++ rest).length
  value : Whole c value.length rest.length

theorem optExtension_ne_nil (h : 12 < optNibble n) : optExtension n ≠ [] := by
  unfold optNibble at h
  unfold optExtension
  split_ifs at h ⊢
  · omega
  · exact cons_ne_nil _ _
  · exact cons_ne_nil _ _

theorem optNibble_le (n : Nat) (h : ¬ 12 < optNibble n) : optNibble n = n ∧ optExtension n = [] := by
  unfold optNibble at h ⊢
  unfold optExtension
  split_ifs at h ⊢
  · exact ⟨rfl, rfl⟩
  · omega
  · omega

/-- **`decode_delta` (coap.c:101)** takes back the extension of a number. -/
theorem decodeDelta_spec (hwhole : Whole c (optExtension n).length rest.length) (hext : 12 < optNibble n)
    (hn : n < 2 ^ 16) (hat : context.At c (optExtension n ++ rest)) :
    ∃ context', decodeDelta context (optNibble n) = pure (moreAt c rest, context', n, (optExtension n).length) ∧
      context'.delta = context.delta ∧ context'.At c rest := by
  obtain ⟨context', v, hread, hv, hdelta, hrest⟩ :=
    OptionContext.read_spec true hwhole hat (append_ne_nil_of_left_ne_nil (optExtension_ne_nil hext) _)
  refine ⟨context', ?_, hdelta, hrest⟩
  have hsmall : ¬ n < 13 := fun h => by
    rw [optNibble, if_pos h] at hext
    omega
  by_cases h269 : n < 269
  · have he : optExtension n = [UInt8.ofNat (n - 13)] := by rw [optExtension, if_neg hsmall, if_pos h269]
    have hvalue : (UInt8.ofNat (n - 13)).toNat + 13 = n := by
      rw [UInt8.toNat_ofNat']
      omega
    rw [he] at hread hv ⊢
    rw [decodeDelta, optNibble, if_neg hsmall, if_pos h269, if_pos rfl]
    change (context.read [UInt8.ofNat (n - 13)].length true >>= _) = _
    rw [hread, pure_bind, hv rfl]
    simp only [getD_cons_zero, hvalue, length_singleton]
  · have he : optExtension n = htons (n - 269) := by rw [optExtension, if_neg hsmall, if_neg h269]
    have hvalue : ((be16 (htons (n - 269))).toNat + 269) % 2 ^ 16 = n := by
      rw [be16_htons (by omega)]
      omega
    rw [he] at hread hv ⊢
    rw [decodeDelta, optNibble, if_neg hsmall, if_neg h269, if_neg (by decide), if_pos rfl]
    change (context.read (htons (n - 269)).length true >>= _) = _
    rw [hread, pure_bind, hv rfl]
    simp only [hvalue]
    rfl

theorem parseDelta_spec (len optLen : Nat) (hwhole : Whole c (optExtension delta).length rest.length)
    (hdelta : delta < 2 ^ 16) (hat : context.At c (optExtension delta ++ rest)) (hlen : 12 < len → rest ≠ []) :
    ∃ context', parseDelta (moreAt c (optExtension delta ++ rest)) context (optNibble delta) len optLen =
        pure (moreAt c rest, context', delta, optLen + (optExtension delta).length) ∧
        context'.delta = context.delta ∧ context'.At c rest := by
  by_cases hext : 12 < optNibble delta
  · obtain ⟨context', hdecode, hsame, hrest⟩ := decodeDelta_spec hwhole hext hdelta hat
    have hmore := moreAt_of_ne (c := c) (append_ne_nil_of_left_ne_nil (optExtension_ne_nil hext) rest)
    refine ⟨context', ?_, hsame, hrest⟩
    rw [parseDelta, if_pos hext, if_pos hmore, hdecode, pure_bind]
    dsimp only
    rw [if_neg]
    rintro ⟨hnone, h12⟩
    simp [moreAt_of_ne (hlen h12)] at hnone
  · obtain ⟨hnibble, hnone⟩ := optNibble_le delta hext
    rw [hnone, nil_append] at hat ⊢
    exact ⟨context, by rw [parseDelta, if_neg hext, hnibble]; rfl, rfl, hat⟩

theorem parseLen_spec (optLen : Nat) (hwhole : Whole c (optExtension len).length rest.length) (hlen : len < 2 ^ 16)
    (hat : context.At c (optExtension len ++ rest)) :
    ∃ context', parseLen (moreAt c (optExtension len ++ rest)) context (optNibble len) optLen =
        pure (moreAt c rest, context', len, optLen + (optExtension len).length) ∧
        context'.delta = context.delta ∧ context'.At c rest := by
  by_cases hext : 12 < optNibble len
  · obtain ⟨context', hdecode, hsame, hrest⟩ := decodeDelta_spec hwhole hext hlen hat
    refine ⟨context', ?_, hsame, hrest⟩
    rw [parseLen, if_pos hext, hdecode, pure_bind]
  · obtain ⟨hnibble, hnone⟩ := optNibble_le len hext
    rw [hnone, nil_append] at hat ⊢
    exact ⟨context, by rw [parseLen, if_neg hext, hnibble]; rfl, rfl, hat⟩

/-- The place after the option has been stored there. -/
def CoapOption.store (o : CoapOption) (number : Nat) (value : List UInt8) : CoapOption :=
  ⟨number, value.length, value ++ o.value.drop value.length⟩

/-- At the end of the packet, an option without a value is not stored. -/
def storeOption (option : Option CoapOption) (number : Nat) (value rest : List UInt8) : Option CoapOption :=
  if value = [] ∧ rest = [] then option else option.map (·.store number value)

theorem parseValue_spec {option : Option CoapOption} (delta optLen : Nat) (hwhole : Whole c value.length rest.length)
    (hat : context.At c (value ++ rest)) (hend : value ++ rest = [] → moreAt c [] = false)
    (hnumber : context.delta + delta < 2 ^ 16) (hplace : ∀ o ∈ option, value.length ≤ o.value.length) :
    ∃ context', parseValue (moreAt c (value ++ rest)) context option delta value.length optLen =
        pure ⟨moreAt c rest, context', storeOption option (context.delta + delta) value rest, optLen + value.length⟩ ∧
      context'.delta = context.delta + delta ∧ context'.At c rest := by
  have hmod : (context.delta + delta) % 2 ^ 16 = context.delta + delta := Nat.mod_eq_of_lt hnumber
  by_cases hsome : value ≠ [] ∨ rest ≠ []
  · have hne : value ++ rest ≠ [] := by rwa [Ne, append_eq_nil_iff, not_and_or]
    rw [moreAt_of_ne hne, storeOption, if_neg (not_and_or.2 hsome)]
    simp only [parseValue, if_true, hmod]
    cases option with
    | none =>
      obtain ⟨context', v, hread, -, -, hrest⟩ := OptionContext.read_spec false hwhole hat hne
      refine ⟨{ context' with delta := context.delta + delta }, ?_, rfl, hrest⟩
      simp only [hread, pure_bind, Option.map_none]
    | some o =>
      obtain ⟨context', v, hread, hv, -, hrest⟩ := OptionContext.read_spec true hwhole hat hne
      refine ⟨{ context' with delta := context.delta + delta }, ?_, rfl, hrest⟩
      simp only [if_neg (Nat.not_lt.2 (hplace o rfl)), hread, pure_bind, hv rfl, Option.map_some, CoapOption.store]
  · obtain ⟨rfl, rfl⟩ : value = [] ∧ rest = [] := by simpa [not_or] using hsome
    refine ⟨{ context with delta := context.delta + delta }, ?_, rfl, hat⟩
    simp only [parseValue, nil_append, hend rfl, hmod, storeOption, and_self, if_true]
    rfl

theorem optionHeader_nibbles : ∀ d l : Fin 15, optionHeader (UInt8.ofNat d) (UInt8.ofNat l) ≠ coapMarker ∧
    optionHeaderGetDelta (optionHeader (UInt8.ofNat d) (UInt8.ofNat l)) = d ∧
    optionHeaderGetLen (optionHeader (UInt8.ofNat d) (UInt8.ofNat l)) = l := by
  decide

theorem optNibble_lt (n : Nat) : optNibble n < 15 := by
  unfold optNibble
  split_ifs <;> omega

/-- Up to the value. -/
theorem parseOption_eq (option : Option CoapOption) (optLen : Nat) (hwhole : WholeOption c delta value rest)
    (hat : context.At c (optionWire delta value ++ rest)) (hdelta : delta < 2 ^ 16) (hlen : value.length < 2 ^ 16) :
    ∃ context', context'.delta = context.delta ∧ context'.At c (value ++ rest) ∧ parseOption context option optLen =
      parseValue (moreAt c (value ++ rest)) context' option delta value.length
        (optLen + 1 + (optExtension delta).length + (optExtension value.length).length) := by
  obtain ⟨hmarker, hgetDelta, hgetLen⟩ := optionHeader_nibbles ⟨_, optNibble_lt delta⟩ ⟨_, optNibble_lt value.length⟩
  have hwire : optionWire delta value ++ rest =
      [optionHeader (UInt8.ofNat (optNibble delta)) (UInt8.ofNat (optNibble value.length))] ++
        (optExtension delta ++ (optExtension value.length ++ (value ++ rest))) := by simp [optionWire]
  generalize optionHeader (UInt8.ofNat (optNibble delta)) (UInt8.ofNat (optNibble value.length)) = head at *
  rw [hwire] at hat
  obtain ⟨context₁, v, hread, hv, hdelta₁, hat₁⟩ :=
    OptionContext.read_spec true (whole_one _ _) hat (cons_ne_nil _ _)
  obtain ⟨context₂, hparse₂, hdelta₂, hat₂⟩ := parseDelta_spec (optNibble value.length) (optLen + 1) hwhole.delta hdelta
    hat₁ fun h => append_ne_nil_of_left_ne_nil (optExtension_ne_nil h) _
  obtain ⟨context₃, hparse₃, hdelta₃, hat₃⟩ :=
    parseLen_spec (optLen + 1 + (optExtension delta).length) hwhole.len hlen hat₂
  refine ⟨context₃, by rw [hdelta₃, hdelta₂, hdelta₁], hat₃, ?_⟩
  change context.read 1 true = _ at hread
  rw [parseOption, hread, pure_bind, hv rfl]
  simp only [getD_cons_zero, if_neg hmarker, hgetDelta, hgetLen, hparse₂, hparse₃, pure_bind]

/-- **`parse_option` (coap.c:143)** takes back what the format says. -/
theorem parseOption_spec {option : Option CoapOption} (optLen : Nat) (hwhole : WholeOption c delta value rest)
    (hat : context.At c (optionWire delta value ++ rest)) (hend : value ++ rest = [] → moreAt c [] = false)
    (hnumber : context.delta + delta < 2 ^ 16) (hlen : value.length < 2 ^ 16)
    (hplace : ∀ o ∈ option, value.length ≤ o.value.length) :
    ∃ context', parseOption context option optLen =
        pure ⟨moreAt c rest, context', storeOption option (context.delta + delta) value rest,
          optLen + (optionWire delta value).length⟩ ∧
      context'.delta = context.delta + delta ∧ context'.At c rest := by
  obtain ⟨context₁, hsame, hat₁, hparse₁⟩ := parseOption_eq option optLen hwhole hat (by omega) hlen
  obtain ⟨context', hparse, hdelta', hrest⟩ := parseValue_spec delta
    (optLen + 1 + (optExtension delta).length + (optExtension value.length).length) hwhole.value hat₁ hend (by omega)
    hplace
  rw [hsame] at hparse hdelta'
  have hsize : optLen + 1 + (optExtension delta).length + (optExtension value.length).length + value.length =
    optLen + (optionWire delta value).length := by
    simp only [optionWire, length_cons, length_append]
    omega
  rw [hsize] at hparse
  exact ⟨context', hparse₁.trans hparse, hdelta', hrest⟩

/-- A value that does not fit into the place is an error. -/
theorem parseOption_tooLong {p : CoapOption} (optLen : Nat) (hwhole : WholeOption c delta value rest)
    (hat : context.At c (optionWire delta value ++ rest)) (hdelta : delta < 2 ^ 16) (hlen : value.length < 2 ^ 16)
    (hplace : p.value.length < value.length) :
    parseOption context (some p) optLen = throw enomem := by
  obtain ⟨context₁, -, -, hparse⟩ := parseOption_eq (some p) optLen hwhole hat hdelta hlen
  have hvalue : value ≠ [] := length_pos_iff.1 (Nat.zero_lt_of_lt hplace)
  rw [hparse, moreAt_of_ne (append_ne_nil_of_left_ne_nil hvalue _), parseValue]
  simp only [if_true, if_pos hplace]

/-- To look for the value behind the end of the packet is an error too. -/
theorem parseOption_open (option : Option CoapOption) (optLen : Nat) (hwhole : WholeOption c delta [] [])
    (hat : context.At c (optionWire delta [])) (hopen : moreAt c [] = true) (hdelta : delta < 2 ^ 16) :
    parseOption context option optLen = throw einval := by
  rw [← append_nil (optionWire delta [])] at hat
  obtain ⟨context₁, -, hat₁, hparse⟩ := parseOption_eq option optLen hwhole hat hdelta (Nat.two_pow_pos _)
  have hread := OptionContext.read_end hat₁ 0
  rw [hparse, nil_append, hopen]
  cases option <;> simp only [parseValue, if_true, length_nil, Nat.not_lt_zero, if_false, hread] <;> rfl

end

end Zephyr
