import Zephyr.Net.PktCopy
import Zephyr.Kernel.Api
/-!
# Building a CoAP packet (subsys/net/lib/coap/coap.c:366-437, :923-1046)

The packet has no context that limits it, or one whose `data_len` is not used up. What a failing call has appended
by then is not modelled.

The extension of the length is written by the size of the extension of the delta (coap.c:986), and `opt_len` is an
`u8_t` that tells by being 0 that there is no option yet (coap.c:1033). `OptionsSound` is where neither shows.
-/
namespace Zephyr

open List

abbrev Ret := ExceptT ℤ Option

theorem Ret.of_bind_eq_pure {α β : Type} {m : Ret α} {f : α → Ret β} {b : β} (h : m >>= f = pure b) :
    ∃ a, m = pure a ∧ f a = pure b := by
  obtain _ | _ | a := m
  · cases h
  · cases h
  · exact ⟨a, rfl, h⟩

structure CoapTx where
  pkt : List NetBuf
  supply : List NetBuf
  hdrLen : Nat
  optLen : Nat
  lastDelta : Nat
deriving DecidableEq

/-- An option as the application has it. -/
structure CoapOpt where
  number : Nat
  value : List UInt8
deriving DecidableEq

structure CoapMessage where
  ver : Fin 4
  type : Fin 4
  token : List UInt8
  code : UInt8
  id : UInt16
  options : List CoapOpt
  payload : List UInt8
deriving DecidableEq

def coapMarker : UInt8 := 0xff

def appendAll (err : ℤ) (cpkt : CoapTx) (value : List UInt8) : Ret CoapTx :=
  ExceptT.mk ((netPktAppend none cpkt.supply cpkt.pkt value).map fun r =>
    if r.1 = value.length then .ok { cpkt with pkt := r.2.1, supply := r.2.2 } else .error err)

def coapHdr (ver type : Fin 4) (tokenlen : Nat) : UInt8 :=
  (UInt8.ofNat ver &&& 3) <<< 6 ||| (UInt8.ofNat type &&& 3) <<< 4 ||| UInt8.ofNat tokenlen &&& 0xf

def coapPacketInit (pkt supply : List NetBuf) (ver type : Fin 4) (token : List UInt8) (code : UInt8)
    (id : UInt16) : Ret CoapTx :=
  if pkt = [] then throw einval
  else do
    let cpkt ← appendAll enomem ⟨pkt, supply, 0, 0, 0⟩ [coapHdr ver type token.length]
    let cpkt ← appendAll enomem cpkt [code]
    let cpkt ← appendAll enomem cpkt (htons id.toNat)
    let cpkt ← appendAll enomem cpkt token
    pure { cpkt with hdrLen := (1 + 1 + 2 + token.length) % 2 ^ 8 }

def optionHeader (delta len : UInt8) : UInt8 := (delta &&& 0xf) <<< 4 ||| len &&& 0xf

def encodeExtendedOption (num : Nat) : Nat × Nat × Nat :=
  if num < 13 then (0, num, 0) else if num < 269 then (1, 13, num - 13) else (2, 14, num - 269)

section

variable (cpkt : CoapTx)

/-- For the delta both sizes are its own; for the length, the second is that of the delta (coap.c:984-988). -/
def appendExt (size size' ext : Nat) : Ret CoapTx :=
  if size = 1 then appendAll enomem cpkt [UInt8.ofNat ext]
  else if size' = 2 then appendAll enomem cpkt (htons ext)
  else pure cpkt

def encodeOption (code : Nat) (value : List UInt8) : Ret (CoapTx × Nat) := do
  let (deltaSize, optDelta, deltaExt) := encodeExtendedOption code
  let (lenSize, optLen, lenExt) := encodeExtendedOption value.length
  let cpkt ← appendAll enomem cpkt [optionHeader (UInt8.ofNat optDelta) (UInt8.ofNat optLen)]
  let cpkt ← appendExt cpkt deltaSize deltaSize deltaExt
  let cpkt ← appendExt cpkt lenSize deltaSize lenExt
  let cpkt ← appendAll einval cpkt value
  pure (cpkt, 1 + deltaSize + lenSize + value.length)

def CoapTx.delta (code : Nat) : Nat :=
  if cpkt.optLen ≠ 0 then (if code = cpkt.lastDelta then 0 else code - cpkt.lastDelta) else code

def coapPacketAppendOption (code : Nat) (value : List UInt8) : Ret CoapTx :=
  if code < cpkt.lastDelta then throw einval
  else do
    let r ← ExceptT.lift (netFragSkip cpkt.pkt 0 cpkt.hdrLen)
    if r.frag = [] ∧ r.pos = 0xffff then throw einval
    else
      let (cpkt', n) ← ExceptT.adapt (fun _ => einval) (encodeOption cpkt (cpkt.delta code) value)
      pure { cpkt' with optLen := (cpkt.optLen + n) % 2 ^ 8, lastDelta := (cpkt.lastDelta + cpkt.delta code) % 2 ^ 16 }

def coapPacketAppendPayloadMarker : Ret CoapTx := appendAll einval cpkt [coapMarker]

def coapPacketAppendPayload (payload : List UInt8) : Ret CoapTx := appendAll einval cpkt payload

def coapAppendOptions (options : List CoapOpt) : Ret CoapTx :=
  options.foldlM (fun cpkt o => coapPacketAppendOption cpkt o.number o.value) cpkt

def coapAppendBody (payload : List UInt8) : Ret CoapTx :=
  if payload = [] then pure cpkt
  else do
    let cpkt ← coapPacketAppendPayloadMarker cpkt
    coapPacketAppendPayload cpkt payload

end

def coapBuild (pkt supply : List NetBuf) (m : CoapMessage) : Ret CoapTx := do
  let cpkt ← coapPacketInit pkt supply m.ver m.type m.token m.code m.id
  let cpkt ← coapAppendOptions cpkt m.options
  coapAppendBody cpkt m.payload

/-! ## The format -/

def optNibble (n : Nat) : Nat := if n < 13 then n else if n < 269 then 13 else 14

def optExtension (n : Nat) : List UInt8 :=
    if n < 13 then [] else if n < 269 then [UInt8.ofNat (n - 13)] else htons (n - 269)

def optionWire (delta : Nat) (value : List UInt8) : List UInt8 :=
  optionHeader (UInt8.ofNat (optNibble delta))
  (UInt8.ofNat (optNibble value.length)) :: (optExtension delta ++ (optExtension value.length ++ value))

/-- The options behind one with the number `prev`. -/
def optionsWire : Nat → List CoapOpt → List UInt8
  | _, [] => []
  | prev, o :: os => optionWire (o.number - prev) o.value ++ optionsWire o.number os

def bodyWire (payload : List UInt8) : List UInt8 := if payload = [] then [] else coapMarker :: payload

def CoapMessage.header (m : CoapMessage) : List UInt8 :=
    coapHdr m.ver m.type m.token.length :: m.code :: (htons m.id.toNat ++ m.token)

def CoapMessage.wire (m : CoapMessage) : List UInt8 := m.header ++ (optionsWire 0 m.options ++ bodyWire m.payload)

/-- Numbers and lengths are 16 bits wide, the numbers do not descend, and a token has at most 8 bytes. -/
structure CoapMessage.Valid (m : CoapMessage) : Prop where
  token : m.token.length ≤ 8
  ascending : (m.options.map CoapOpt.number).Pairwise (· ≤ ·)
  numbers : ∀ o ∈ m.options, o.number < 2 ^ 16
  lengths : ∀ o ∈ m.options, o.value.length < 2 ^ 16

/-- **Where the builder writes what the format says**, behind `len` bytes of options and the number `prev`: the
size of the options so far is not taken for none of them, and the extension of the length is not affected by the
one of the delta. -/
def OptionsSound : Nat → Nat → List CoapOpt → Prop
  | _, _, [] => True
  | len, prev, o :: os =>
    (prev = 0 ∨ len % 2 ^ 8 ≠ 0) ∧
    (13 ≤ o.value.length ∧ o.value.length < 269 ∨ (269 ≤ o.number - prev ↔ 269 ≤ o.value.length)) ∧
    OptionsSound (len + (optionWire (o.number - prev) o.value).length) o.number os

instance decidableOptionsSound : ∀ len prev os, Decidable (OptionsSound len prev os)
  | _, _, [] => isTrue trivial
  | len, prev, o :: os =>
    have := decidableOptionsSound (len + (optionWire (o.number - prev) o.value).length) o.number os
    inferInstanceAs (Decidable (_ ∧ _ ∧ _))

/-! ## The builder -/

section

variable {pkt supply : List NetBuf} {content value : List UInt8} {total hdrLen optLen lastDelta : Nat}

/-- The packet has the content, and all it can have are `total` bytes. -/
structure Built (pkt supply : List NetBuf) (content : List UInt8) (total : Nat) : Prop where
  grow : Growing pkt supply
  bytes : bytes pkt = content
  total : content.length + spaceLeft pkt supply = total

theorem appendAll_nil (err : ℤ) (cpkt : CoapTx) : appendAll err cpkt [] = pure cpkt := rfl

theorem appendAll_spec (h : Built pkt supply content total) (value : List UInt8)
    (hfits : (content ++ value).length ≤ total) :
    ∃ pkt' supply', Built pkt' supply' (content ++ value) total ∧
      ∀ err hdrLen optLen lastDelta, appendAll err ⟨pkt, supply, hdrLen, optLen, lastDelta⟩ value = pure
      ⟨pkt', supply', hdrLen, optLen, lastDelta⟩ := by
  rw [length_append] at hfits
  have htotal := h.total
  obtain ⟨pkt', supply', happend, hbytes, hgrow, hspace⟩ := netPktAppend_fits value h.grow (by omega)
  refine ⟨pkt', supply', ⟨hgrow, by rw [hbytes, h.bytes], by rw [length_append]; omega⟩,
    fun err hdrLen optLen lastDelta => ?_⟩
  rw [appendAll, happend, Option.map_some, if_pos rfl]
  rfl

theorem appendExt_eq (cpkt : CoapTx) (size size' ext : Nat) :
    appendExt cpkt size size' ext = appendAll enomem cpkt
    (if size = 1 then [UInt8.ofNat ext] else if size' = 2 then htons ext else []) := by
  unfold appendExt
  split
  · rfl
  · split
    · rfl
    · rw [appendAll_nil]

theorem encodeExtendedOption_size (n : Nat) : (encodeExtendedOption n).1 = (optExtension n).length := by
  unfold encodeExtendedOption optExtension
  split_ifs <;> rfl

theorem encodeExtendedOption_nibble (n : Nat) : (encodeExtendedOption n).2.1 = optNibble n := by
  unfold encodeExtendedOption optNibble
  split_ifs <;> rfl

/-- The first size decides about one byte, and the second about two: where this is what the format says. -/
theorem encodeExtendedOption_ext {delta n : Nat} :
    (if (encodeExtendedOption n).1 = 1 then [UInt8.ofNat (encodeExtendedOption n).2.2]
      else if (encodeExtendedOption delta).1 = 2 then htons (encodeExtendedOption n).2.2 else []) = optExtension n ↔
    13 ≤ n ∧ n < 269 ∨ (269 ≤ delta ↔ 269 ≤ n) := by
  have hdelta : (encodeExtendedOption delta).1 = 2 ↔ 269 ≤ delta := by
    unfold encodeExtendedOption
    split_ifs <;> simp <;> omega
  rw [if_congr hdelta rfl rfl]
  by_cases h13 : n < 13
  · simp only [encodeExtendedOption, optExtension, if_pos h13]
    rw [if_neg (by decide)]
    split
    · exact iff_of_false nofun (by omega)
    · exact iff_of_true rfl (by omega)
  · by_cases h269 : n < 269
    · simp only [encodeExtendedOption, optExtension, if_neg h13, if_pos h269, if_true, true_iff]
      omega
    · simp only [encodeExtendedOption, optExtension, if_neg h13, if_neg h269]
      rw [if_neg (by decide)]
      split
      · exact iff_of_true rfl (by omega)
      · exact iff_of_false nofun (by omega)

/-- **`encode_option` (coap.c:961)** writes the option, where the extension of the length is not affected by the
one of the delta. -/
theorem encodeOption_spec (hdrLen optLen lastDelta : Nat) {delta : Nat} (h : Built pkt supply content total)
    (hsound : 13 ≤ value.length ∧ value.length < 269 ∨ (269 ≤ delta ↔ 269 ≤ value.length))
    (hfits : (content ++ optionWire delta value).length ≤ total) :
    ∃ pkt' supply', Built pkt' supply' (content ++ optionWire delta value) total ∧
      encodeOption ⟨pkt, supply, hdrLen, optLen, lastDelta⟩ delta value =
        pure (⟨pkt', supply', hdrLen, optLen, lastDelta⟩, (optionWire delta value).length) := by
  generalize hhead : optionHeader (UInt8.ofNat (optNibble delta)) (UInt8.ofNat (optNibble value.length)) = head
  have hwire : content ++ optionWire delta value = content ++ [head] ++ optExtension delta ++
    optExtension value.length ++ value := by
    simp [optionWire, hhead]
  rw [hwire] at hfits ⊢
  simp only [length_append] at hfits
  obtain ⟨pkt₁, supply₁, hb₁, h₁⟩ := appendAll_spec h [head] (by simp only [length_append]; omega)
  obtain ⟨pkt₂, supply₂, hb₂, h₂⟩ := appendAll_spec hb₁ (optExtension delta) (by simp only [length_append]; omega)
  obtain ⟨pkt₃, supply₃, hb₃, h₃⟩ := appendAll_spec hb₂ (optExtension value.length)
    (by simp only [length_append]; omega)
  obtain ⟨pkt', supply', hb, h₄⟩ := appendAll_spec hb₃ value (by simp only [length_append]; omega)
  refine ⟨pkt', supply', hb, ?_⟩
  have hsize : 1 + (encodeExtendedOption delta).1 + (encodeExtendedOption value.length).1 + value.length =
    (optionWire delta value).length := by
    simp only [encodeExtendedOption_size, optionWire, length_cons, length_append]
    omega
  simp only [encodeOption, appendExt_eq, encodeExtendedOption_nibble, encodeExtendedOption_ext.2 hsound,
    encodeExtendedOption_ext.2 (.inr Iff.rfl), hhead, h₁, h₂, h₃, h₄, pure_bind, hsize]

/-- **`coap_packet_append_option` (coap.c:1008)** behind a header that is there, for a number not below the last one. -/
theorem coapPacketAppendOption_spec {code : Nat} (h : Built pkt supply content total)
    (hhdr : 1 ≤ hdrLen ∧ hdrLen ≤ content.length)
    (hasc : lastDelta ≤ code) (hcode : code < 2 ^ 16) (hwrap : lastDelta = 0 ∨ optLen ≠ 0)
    (hsound : 13 ≤ value.length ∧ value.length < 269 ∨ (269 ≤ code - lastDelta ↔ 269 ≤ value.length))
    (hfits : (content ++ optionWire (code - lastDelta) value).length ≤ total) :
    ∃ pkt' supply', Built pkt' supply' (content ++ optionWire (code - lastDelta) value) total ∧
      coapPacketAppendOption ⟨pkt, supply, hdrLen, optLen, lastDelta⟩ code value =
        pure ⟨pkt', supply', hdrLen, (optLen + (optionWire (code - lastDelta) value).length) % 2 ^ 8, code⟩ := by
  have hdelta : CoapTx.delta ⟨pkt, supply, hdrLen, optLen, lastDelta⟩ code = code - lastDelta := by
    unfold CoapTx.delta
    split_ifs <;> simp_all
  obtain ⟨r, hskip, hlin⟩ := (netFragRead_linear false pkt 0 hdrLen).2
    (readFits_of_noGaps false h.grow.gaps (.inl (by omega)))
  have hthere : ¬ (r.frag = [] ∧ r.pos = 0xffff) := fun hbad => by
    have := (hlin.fails.1 hbad).2
    rw [h.bytes] at this
    omega
  obtain ⟨pkt', supply', hb, hencode⟩ := encodeOption_spec hdrLen optLen lastDelta h hsound hfits
  refine ⟨pkt', supply', hb, ?_⟩
  have hlast : (lastDelta + (code - lastDelta)) % 2 ^ 16 = code := by
    rw [Nat.add_sub_cancel' hasc, Nat.mod_eq_of_lt hcode]
  have hread : ExceptT.lift (netFragSkip pkt 0 hdrLen) = (pure r : Ret ReadResult) := by
    rw [netFragSkip, hskip]
    rfl
  rw [coapPacketAppendOption, if_neg (Nat.not_lt.2 hasc)]
  simp only [hread, pure_bind, if_neg hthere, hdelta, hencode, hlast]
  rfl

/-- All options. The induction is on those still to come; `optLen` is the size of those before modulo 256. -/
theorem coapAppendOptions_spec {options : List CoapOpt} (hdrLen len : Nat) (h : Built pkt supply content total)
    (hhdr : 1 ≤ hdrLen ∧ hdrLen ≤ content.length) (hasc : (options.map CoapOpt.number).Pairwise (· ≤ ·))
    (hlast : ∀ o ∈ options, lastDelta ≤ o.number) (hnumbers : ∀ o ∈ options, o.number < 2 ^ 16)
    (hsound : OptionsSound len lastDelta options) (hfits : (content ++ optionsWire lastDelta options).length ≤ total) :
    ∃ cpkt, coapAppendOptions ⟨pkt, supply, hdrLen, len % 2 ^ 8, lastDelta⟩ options = pure cpkt ∧
      Built cpkt.pkt cpkt.supply (content ++ optionsWire lastDelta options) total := by
  induction options generalizing pkt supply content len lastDelta with
  | nil => exact ⟨_, rfl, by rwa [optionsWire, append_nil]⟩
  | cons o os ih =>
    obtain ⟨hwrap, hlen, hsound⟩ := hsound
    rw [map_cons, pairwise_cons] at hasc
    rw [optionsWire, ← append_assoc] at hfits ⊢
    have hone : (content ++ optionWire (o.number - lastDelta) o.value).length ≤ total := by
      rw [length_append] at hfits
      omega
    obtain ⟨pkt', supply', hb, happend⟩ := coapPacketAppendOption_spec h hhdr (hlast o mem_cons_self)
      (hnumbers o mem_cons_self)
      hwrap hlen hone
    rw [Nat.mod_add_mod] at happend
    obtain ⟨cpkt, hrest, hb'⟩ := ih _ hb ⟨hhdr.1, by rw [length_append]; omega⟩ hasc.2
      (fun x hx => hasc.1 _ (mem_map_of_mem hx)) (fun x hx => hnumbers x (mem_cons_of_mem _ hx)) hsound hfits
    refine ⟨cpkt, ?_, hb'⟩
    rw [coapAppendOptions, foldlM_cons, happend, pure_bind]
    exact hrest

theorem coapPacketInit_spec (m : CoapMessage) (htoken : m.token.length ≤ 8) (h : Built pkt supply [] total)
    (hfits : m.header.length ≤ total) :
    ∃ pkt' supply', Built pkt' supply' m.header total ∧
      coapPacketInit pkt supply m.ver m.type m.token m.code m.id = pure ⟨pkt', supply', 4 + m.token.length, 0, 0⟩ := by
  have hhdr : m.header = [] ++ [coapHdr m.ver m.type m.token.length] ++ [m.code] ++ htons m.id.toNat ++ m.token := by
    simp [CoapMessage.header]
  rw [hhdr] at hfits ⊢
  simp only [length_append] at hfits
  obtain ⟨pkt₁, supply₁, hb₁, h₁⟩ := appendAll_spec h [coapHdr m.ver m.type m.token.length]
    (by simp only [length_append]; omega)
  obtain ⟨pkt₂, supply₂, hb₂, h₂⟩ := appendAll_spec hb₁ [m.code] (by simp only [length_append]; omega)
  obtain ⟨pkt₃, supply₃, hb₃, h₃⟩ := appendAll_spec hb₂ (htons m.id.toNat) (by simp only [length_append]; omega)
  obtain ⟨pkt', supply', hb, h₄⟩ := appendAll_spec hb₃ m.token (by simp only [length_append]; omega)
  refine ⟨pkt', supply', hb, ?_⟩
  have hlen : (1 + 1 + 2 + m.token.length) % 2 ^ 8 = 4 + m.token.length := Nat.mod_eq_of_lt (by omega)
  rw [coapPacketInit, if_neg h.grow.ne]
  simp only [h₁, h₂, h₃, h₄, pure_bind, hlen]

theorem coapAppendBody_spec {cpkt : CoapTx} (payload : List UInt8) (h : Built cpkt.pkt cpkt.supply content total)
    (hfits : (content ++ bodyWire payload).length ≤ total) :
    ∃ cpkt', coapAppendBody cpkt payload = pure cpkt' ∧ bytes cpkt'.pkt = content ++ bodyWire payload := by
  by_cases hempty : payload = []
  · exact ⟨cpkt, by simp [coapAppendBody, hempty], by simp [bodyWire, hempty, h.bytes]⟩
  · have hbody : content ++ bodyWire payload = content ++ [coapMarker] ++ payload := by simp [bodyWire, hempty]
    rw [hbody] at hfits ⊢
    obtain ⟨pkt₁, supply₁, hb₁, h₁⟩ := appendAll_spec h [coapMarker] (by rw [length_append] at hfits; omega)
    obtain ⟨pkt', supply', hb, h₂⟩ := appendAll_spec hb₁ payload hfits
    refine ⟨⟨pkt', supply', cpkt.hdrLen, cpkt.optLen, cpkt.lastDelta⟩, ?_, hb.bytes⟩
    rw [coapAppendBody, if_neg hempty, coapPacketAppendPayloadMarker, h₁, pure_bind, coapPacketAppendPayload, h₂]

/-- **A message is built as the format says.** -/
theorem coapBuild_spec {m : CoapMessage} (hm : m.Valid) (hsound : OptionsSound 0 0 m.options)
    (hgrow : Growing pkt supply) (hempty : bytes pkt = []) (hfits : m.wire.length ≤ spaceLeft pkt supply) :
    ∃ cpkt, coapBuild pkt supply m = pure cpkt ∧ bytes cpkt.pkt = m.wire := by
  have hb : Built pkt supply [] (spaceLeft pkt supply) := ⟨hgrow, hempty, by simp⟩
  simp only [CoapMessage.wire, length_append] at hfits
  have hhdr : 4 + m.token.length = m.header.length := by
    simp only [CoapMessage.header, length_cons, length_append]
    change _ = 2 + _ + 1 + 1
    omega
  obtain ⟨pkt₁, supply₁, hb₁, h₁⟩ := coapPacketInit_spec m hm.token hb (by omega)
  obtain ⟨cpkt₂, h₂, hb₂⟩ := coapAppendOptions_spec (4 + m.token.length) 0 hb₁
    ⟨by omega, by omega⟩ hm.ascending (fun _ _ => Nat.zero_le _)
    hm.numbers hsound (by rw [length_append]; omega)
  obtain ⟨cpkt, h₃, hbytes⟩ := coapAppendBody_spec m.payload hb₂ (by simp only [length_append]; omega)
  refine ⟨cpkt, ?_, by rw [hbytes, CoapMessage.wire, append_assoc]⟩
  rw [Nat.zero_mod] at h₂
  rw [coapBuild, h₁, pure_bind, h₂, pure_bind, h₃]

end

end Zephyr
