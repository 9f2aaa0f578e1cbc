import Zephyr.Net.CoapParse
/-!
# CoAP there and back (subsys/net/lib/coap/coap.c)

A message that is built, sent behind the headers of UDP and IP, and arrives in a chain of buffers is parsed to what
it was. Three things stand in the way of that being so for every message (`long_delta_is_rejected`): the extension
of a length next to a long delta, `opt_len` in 8 bits, and a last option without a value.
-/
namespace Zephyr

open Chunks List Option

/-- The places in order, each with the option that is its turn; those that no option is left for stay as they are. -/
def storeAll : List CoapOpt → List CoapOption → List CoapOption
  | o :: os, p :: ps => p.store o.number o.value :: storeAll os ps
  | _, ps => ps

/-- All that `coap_packet_parse` counts into `opt_len`: the options and the marker. -/
def CoapMessage.optLen (m : CoapMessage) : Nat := (optionsWire 0 m.options).length + if m.payload = [] then 0 else 1

/-- **The packet is read as the message**: header and token, the options in order in the places there are, and the
payload. -/
structure CoapMessage.ReadBack (m : CoapMessage) (pkt : List NetBuf) (ipHdrLen ipv6ExtLen : Nat)
    (options : List CoapOption) (cpkt : CoapRx)
    (options' : List CoapOption) : Prop where
  version : coapHeaderGetVersion cpkt = some (UInt8.ofNat m.ver)
  type : coapHeaderGetType cpkt = some (UInt8.ofNat m.type)
  code : coapHeaderGetCode cpkt = some m.code
  id : coapHeaderGetId cpkt = some m.id
  token : coapHeaderGetToken cpkt = some m.token
  hdrLen : cpkt.hdrLen = 4 + m.token.length
  options : options' = storeAll m.options options
  optLen : cpkt.optLen = m.optLen
  payload : ∃ r, coapPacketGetPayload pkt ipHdrLen ipv6ExtLen cpkt = some (r, m.payload.length) ∧
    (bytes r.frag).drop r.pos = m.payload

/-- The last option has a value, or the payload behind it, or no place is left for it, or the place is already as
it is to be. -/
def LastStored (options : List CoapOpt) (places : List CoapOption) (payload : List UInt8) : Prop :=
  payload ≠ [] ∨ ∀ x ∈ (options.zip places).drop (options.length - 1), x.1.value ≠ [] ∨
    x.2.delta = x.1.number ∧ x.2.len = 0

instance (options : List CoapOpt) (places : List CoapOption) (payload : List UInt8) :
    Decidable (LastStored options places payload) :=
  inferInstanceAs (Decidable (_ ∨ ∀ x ∈ _, _))

/-- The places as the parser leaves them: a last option without a value is not stored. -/
def storeParsed (payload : List UInt8) : List CoapOpt → List CoapOption → List CoapOption
  | o :: os, p :: ps => (if o.value = [] ∧ os = [] ∧ payload = [] then
    p else p.store o.number o.value) :: storeParsed payload os ps
  | _, ps => ps

/-- No empty buffer is in the headers in front of the message, or in the message before the payload; nor at the
end, if that is empty. -/
structure CoapMessage.Unbroken (m : CoapMessage) (c : List NetBuf) : Prop where
  headers : Whole c ((bytes c).length - m.wire.length) m.wire.length
  message : Whole c (4 + m.token.length + m.optLen) m.payload.length
  ends : m.payload = [] → moreAt c [] = false

/-- No empty buffer is inside of what is read of an option at once, for all the options behind `prev`. -/
def WholeOptions (c : List NetBuf) (payload : List UInt8) : Nat → List CoapOpt → Prop
  | _, [] => True
  | prev, o :: os => WholeOption c (o.number - prev) o.value (optionsWire o.number os ++ bodyWire payload) ∧
    WholeOptions c payload o.number os

/-- No empty buffer is inside of what the parser reads at once: the headers in front of the message, its header,
and the parts of its options. -/
structure CoapMessage.Readable (m : CoapMessage) (c : List NetBuf) : Prop where
  headers : Whole c ((bytes c).length - m.wire.length) m.wire.length
  header : Whole c (4 + m.token.length) (optionsWire 0 m.options ++ bodyWire m.payload).length
  options : WholeOptions c m.payload 0 m.options

variable {os : List CoapOpt}

section

variable {c : List NetBuf} {payload rest : List UInt8}

/-! ## The loop -/

theorem bodyWire_ne_nil : bodyWire payload ≠ [] ↔ payload ≠ [] := by
  unfold bodyWire
  split_ifs with h <;> simp [h]

theorem optionsWire_length (prev : Nat) (os : List CoapOpt) : os.length ≤ (optionsWire prev os).length := by
  induction os generalizing prev with
  | nil => exact Nat.le_refl _
  | cons o os ih =>
    have := ih o.number
    simp only [optionsWire, optionWire, length_cons, length_append]
    omega

theorem wire_ne_nil {prev : Nat} : optionsWire prev os ++ bodyWire payload ≠ [] ↔ os ≠ [] ∨ payload ≠ [] := by
  have hoptions : optionsWire prev os ≠ [] ↔ os ≠ [] := by
    cases os <;> simp [optionsWire, optionWire]
  rw [Ne, append_eq_nil_iff, not_and_or]
  exact or_congr hoptions bodyWire_ne_nil

theorem wire_eq_nil {prev : Nat} : optionsWire prev os ++ bodyWire payload = [] ↔ os = [] ∧ payload = [] := by
  rw [← not_iff_not, ← Ne, wire_ne_nil, not_and_or]

theorem storeParsed_eq {options : List CoapOption} :
    storeParsed payload os options = storeAll os options ↔ LastStored os options payload := by
  induction os generalizing options with
  | nil => simp [storeParsed, storeAll, LastStored]
  | cons o os ih =>
    obtain _ | ⟨p, ps⟩ := options
    · simp [storeParsed, storeAll, LastStored]
    · rw [storeParsed, storeAll, cons.injEq, ih]
      by_cases hlast : os = []
      · subst hlast
        by_cases hempty : o.value = [] ∧ payload = []
        · obtain ⟨pdelta, plen, pvalue⟩ := p
          simp [LastStored, hempty, CoapOption.store, eq_comm]
        · have hstored : ¬ (o.value = [] ∧ ([] : List CoapOpt) = [] ∧ payload = []) := fun h => hempty ⟨h.1, h.2.2⟩
          have hsome := not_and_or.1 hempty
          rw [if_neg hstored]
          simp [LastStored]
          tauto
      · have hlen : os.length ≠ 0 := mt length_eq_zero_iff.1 hlast
        obtain ⟨n, hn⟩ := Nat.exists_eq_succ_of_ne_zero hlen
        simp [LastStored, hlast, hn]

theorem storeParsed_cons (o : CoapOpt) (os : List CoapOpt) (options : List CoapOption) :
    storeParsed payload (o :: os) options =
    (storeOption options.head? o.number o.value (optionsWire o.number os ++ bodyWire payload)).toList ++
    storeParsed payload os options.tail := by
  cases options with
  | nil => cases os <;> simp [storeParsed, storeOption]
  | cons p options =>
    simp only [storeParsed, storeOption, wire_eq_nil, head?_cons, Option.map_some, tail_cons]
    split <;> rfl

theorem le_length_wire (prev : Nat) (os : List CoapOpt) (payload : List UInt8) :
    payload.length ≤ (optionsWire prev os ++ bodyWire payload).length := by
  rw [length_append, bodyWire]
  split_ifs with h
  · simp [h]
  · rw [length_cons]
    omega

/-- The context is in front of the options `os` and the payload. -/
structure OptionContext.Ahead (context : OptionContext) (c : List NetBuf) (os : List CoapOpt)
    (payload : List UInt8) : Prop where
  whole : WholeOptions c payload context.delta os
  stands : context.At c (optionsWire context.delta os ++ bodyWire payload)
  ascending : (os.map CoapOpt.number).Pairwise (· ≤ ·)
  above : ∀ o ∈ os, context.delta ≤ o.number
  numbers : ∀ o ∈ os, o.number < 2 ^ 16
  lengths : ∀ o ∈ os, o.value.length < 2 ^ 16

namespace OptionContext.Ahead

variable {context : OptionContext} {o : CoapOpt}

/-- The last round, which finds the marker. -/
theorem marker (h : context.Ahead c [] payload) (option : Option CoapOption) (optLen : Nat) (hpayload : payload ≠ []) :
    ∃ context', parseOption context option optLen = pure ⟨false, context', option, optLen + 1⟩ := by
  have hbody : optionsWire context.delta [] ++ bodyWire payload = [coapMarker] ++ payload := by
    simp [optionsWire, bodyWire, hpayload]
  have hat := h.stands
  rw [hbody] at hat
  obtain ⟨context', v, hread, hv, -⟩ := OptionContext.read_spec true (whole_one _ _) hat (cons_ne_nil _ _)
  change context.read 1 true = _ at hread
  refine ⟨context', ?_⟩
  rw [parseOption, hread, pure_bind, hv rfl, moreAt_of_ne hpayload]
  rfl

/-- One option is parsed. -/
theorem next (h : context.Ahead c (o :: os) payload) (optLen : Nat) {place : Option CoapOption}
    (hplace : ∀ p ∈ place, o.value.length ≤ p.value.length)
    (hend : o.value = [] → os = [] → payload = [] → moreAt c [] = false) :
    ∃ context', parseOption context place optLen = pure
    ⟨moreAt c (optionsWire o.number os ++ bodyWire payload), context',
        storeOption place o.number o.value (optionsWire o.number os ++ bodyWire payload),
        optLen + (optionWire (o.number - context.delta) o.value).length⟩ ∧
      context'.delta = o.number ∧ context'.Ahead c os payload := by
  have hnumber : context.delta + (o.number - context.delta) = o.number := Nat.add_sub_cancel' (h.above o mem_cons_self)
  have hat := h.stands
  have hasc := h.ascending
  rw [optionsWire, append_assoc] at hat
  rw [map_cons, pairwise_cons] at hasc
  obtain ⟨context', hparse, hdelta, hrest⟩ := parseOption_spec optLen h.whole.1 hat (fun hnil => by
      obtain ⟨hvalue, hrest⟩ := append_eq_nil_iff.1 hnil
      obtain ⟨hos, hpayload⟩ := wire_eq_nil.1 hrest
      exact hend hvalue hos hpayload)
    (by rw [hnumber]; exact h.numbers o mem_cons_self) (h.lengths o mem_cons_self) hplace
  rw [hnumber] at hparse hdelta
  exact ⟨context', hparse, hdelta, by rw [hdelta]; exact h.whole.2, by rwa [hdelta], hasc.2,
    fun x hx => by rw [hdelta]; exact hasc.1 _ (List.mem_map_of_mem hx),
    fun x hx => h.numbers x (mem_cons_of_mem _ hx), fun x hx => h.lengths x (mem_cons_of_mem _ hx)⟩

theorem tooLong (h : context.Ahead c (o :: os) payload) (optLen : Nat) {p : CoapOption}
    (hplace : p.value.length < o.value.length) :
    parseOption context (some p) optLen = throw enomem := by
  have hat := h.stands
  rw [optionsWire, append_assoc] at hat
  exact parseOption_tooLong optLen h.whole.1 hat (Nat.lt_of_le_of_lt (Nat.sub_le _ _) (h.numbers o mem_cons_self))
    (h.lengths o mem_cons_self) hplace

end OptionContext.Ahead

/-- **The loop of `parse_options` (coap.c:272).** The induction is on the options still to come. -/
theorem parseLoop_spec (fuel optLen : Nat) {context : OptionContext} {options : List CoapOption}
    (h : context.Ahead c os payload)
    (hends : payload = [] → moreAt c [] = false) (hsome : os ≠ [] ∨ payload ≠ []) (hfuel : os.length + 1 ≤ fuel)
    (hplaces : ∀ x ∈ os.zip options, x.1.value.length ≤ x.2.value.length) :
    parseLoop fuel context options optLen =
      pure (storeParsed payload os options, optLen + (optionsWire context.delta os).length + if payload =
        [] then 0 else 1) := by
  induction os generalizing fuel optLen context options with
  | nil =>
    obtain ⟨fuel, rfl⟩ : ∃ f, fuel = f + 1 := ⟨fuel - 1, by omega⟩
    have hpayload : payload ≠ [] := by simpa using hsome
    obtain ⟨context', hparse⟩ := h.marker options.head? optLen hpayload
    rw [parseLoop, hparse, pure_bind]
    simp only [Bool.false_eq_true, if_false, if_neg hpayload]
    cases options <;> rfl
  | cons o os ih =>
    obtain ⟨fuel, rfl⟩ : ∃ f, fuel = f + 1 := ⟨fuel - 1, by rw [length_cons] at hfuel; omega⟩
    have hplace : (∀ p ∈ options.head?, o.value.length ≤ p.value.length) ∧
        ∀ x ∈ os.zip options.tail, x.1.value.length ≤ x.2.value.length := by
      cases options with
      | nil => simp
      | cons q options =>
        exact ⟨fun p hp => by cases hp; exact hplaces (o, q) mem_cons_self,
          fun x hx => hplaces x (mem_cons_of_mem _ hx)⟩
    obtain ⟨context', hparse, hdelta, hrest⟩ := h.next optLen hplace.1 fun _ _ => hends
    rw [parseLoop, hparse, pure_bind]
    by_cases hmore : os ≠ [] ∨ payload ≠ []
    · have hrec := ih fuel (optLen + (optionWire (o.number - context.delta) o.value).length) hrest hmore
        (Nat.le_of_succ_le_succ hfuel) hplace.2
      simp only [moreAt_of_ne (wire_ne_nil.2 hmore), if_true, hrec, pure_bind, hdelta, optionsWire, length_append,
        Nat.add_assoc, storeParsed_cons]
    · obtain ⟨rfl, rfl⟩ : os = [] ∧ payload = [] := by simpa [not_or] using hmore
      simp only [storeParsed_cons, optionsWire, append_nil, if_true, Nat.add_zero, bodyWire, hends]
      rfl

/-- **At the end there is an empty buffer**, and the parser goes on to read there. -/
theorem parseLoop_open (fuel optLen : Nat) {context : OptionContext} {options : List CoapOption}
    (h : context.Ahead c os []) (hopen : moreAt c [] = true) (r : List CoapOption × Nat) :
    parseLoop fuel context options optLen ≠ pure r := by
  induction fuel generalizing os context options optLen r with
  | zero => exact fun heq => by cases heq
  | succ fuel ih =>
    intro heq
    rw [parseLoop] at heq
    cases os with
    | nil =>
      rw [parseOption, OptionContext.read_end h.stands] at heq
      cases heq
    | cons o os =>
      by_cases hlast : o.value = [] ∧ os = []
      · obtain ⟨hvalue, rfl⟩ := hlast
        have hat := h.stands
        have hwhole := h.whole.1
        rw [hvalue] at hwhole
        rw [optionsWire, hvalue, optionsWire, append_nil] at hat
        rw [parseOption_open _ _ hwhole (by simpa [bodyWire] using hat) hopen
          (Nat.lt_of_le_of_lt (Nat.sub_le _ _) (h.numbers o mem_cons_self))] at heq
        cases heq
      · by_cases hplace : ∀ p ∈ options.head?, o.value.length ≤ p.value.length
        · obtain ⟨context', hparse, -, hahead⟩ := h.next optLen hplace fun hv hos _ => absurd ⟨hv, hos⟩ hlast
          rw [hparse, pure_bind, if_pos (moreAt_of_open hopen _)] at heq
          obtain ⟨r', hrest, -⟩ := Ret.of_bind_eq_pure heq
          exact ih _ hahead r' hrest
        · simp only [not_forall, Nat.not_le] at hplace
          obtain ⟨p, hp, hshort⟩ := hplace
          rw [Option.mem_def.1 hp, h.tooLong optLen hshort] at heq
          cases heq

/-! ## The header -/

variable {frag : List NetBuf} {pos : Nat} {a d : List UInt8}

theorem coapHdr_fields : ∀ (ver type : Fin 4) (tkl : Fin 9),
    (coapHdr ver type tkl &&& 0xc0) >>> 6 = UInt8.ofNat ver ∧ (coapHdr ver type tkl &&& 0x30) >>> 4 = UInt8.ofNat type ∧
    (coapHdr ver type tkl &&& 0xf).toNat = tkl := by
  decide

/-- Something is skipped, and what is behind it is read. -/
theorem skip_read (hwhole : Whole c (a.length + d.length) rest.length) (hat : Before c frag pos (a ++ (d ++ rest)))
    (hd : d ≠ []) :
    ∃ s r, netFragSkip frag pos a.length = some s ∧ netFragRead s.frag s.pos d.length true = some r ∧ r.data = d ∧
      ¬ (r.frag = [] ∧ r.pos = 0xffff) := by
  have hne : d ++ rest ≠ [] := append_ne_nil_of_left_ne_nil hd _
  obtain ⟨s, hs, -, hbehind, -⟩ := netFragRead_before false
    (hwhole.part (by rw [length_append]; omega) (by rw [length_append]; omega)) hat
    (append_ne_nil_of_right_ne_nil _ hne)
  obtain ⟨r, hr, hdata, -, hthere, -⟩ :=
    netFragRead_before true (hwhole.part (Nat.le_refl _) (by omega)) hbehind hne
  exact ⟨s, r, hs, hr, hdata rfl, hthere⟩

theorem coapHeader_spec {m : CoapMessage} (hdrLen optLen : Nat) (hwhole : Whole c (4 + m.token.length) rest.length)
    (htoken : m.token.length ≤ 8) (hat : Before c frag pos (m.header ++ rest)) :
    coapHeaderGetVersion ⟨frag, pos, hdrLen, optLen⟩ = some (UInt8.ofNat m.ver) ∧
    coapHeaderGetType ⟨frag, pos, hdrLen, optLen⟩ = some (UInt8.ofNat m.type) ∧
    coapHeaderGetCode ⟨frag, pos, hdrLen, optLen⟩ = some (if m.code ∈ coapCodes then m.code else 0) ∧
    coapHeaderGetId ⟨frag, pos, hdrLen, optLen⟩ = some m.id ∧
    coapHeaderGetToken ⟨frag, pos, hdrLen, optLen⟩ = some m.token := by
  obtain ⟨hver, htype, htkl⟩ := coapHdr_fields m.ver m.type ⟨m.token.length, by omega⟩
  generalize hhdr : coapHdr m.ver m.type m.token.length = hdr at *
  have hheader : m.header = [hdr] ++ ([m.code] ++ (htons m.id.toNat ++ m.token)) := by simp [CoapMessage.header, hhdr]
  have hat₁ : Before c frag pos ([hdr] ++ ([m.code] ++ (htons m.id.toNat ++ m.token ++ rest))) := by
    rw [hheader] at hat
    simpa using hat
  have hat₃ : Before c frag pos ([hdr, m.code] ++ (htons m.id.toNat ++ (m.token ++ rest))) := by simpa using hat₁
  have hat₄ : Before c frag pos ([hdr, m.code] ++ htons m.id.toNat ++ (m.token ++ rest)) := by simpa using hat₃
  have hid2 : (htons m.id.toNat).length = 2 := rfl
  obtain ⟨r₁, hr₁, hdata₁, -, hthere₁, -⟩ := netFragRead_before true (whole_one _ _) hat₁ (cons_ne_nil _ _)
  obtain ⟨s₂, r₂, hs₂, hr₂, hdata₂, hthere₂⟩ := skip_read
    (hwhole.part (by simp only [length_append]; omega) (by simp only [length_append, length_singleton]; omega)) hat₁
    (cons_ne_nil _ _)
  obtain ⟨s₃, r₃, hs₃, hr₃, hdata₃, hthere₃⟩ := skip_read
    (hwhole.part (by rw [length_append]; omega) (by simp only [length_append, length_cons, length_nil]; omega)) hat₃
    (cons_ne_nil _ _)
  have hfirst : r₁.data.getD 0 0 = hdr := by rw [hdata₁ rfl]; rfl
  change netFragRead frag pos 1 true = _ at hr₁
  refine ⟨?_, ?_, ?_, ?_, ?_⟩
  · simp only [coapHeaderGetVersion, hr₁, bind_eq_bind, bind_some, if_neg hthere₁, hfirst, hver]
  · simp only [coapHeaderGetType, hr₁, bind_eq_bind, bind_some, if_neg hthere₁, hfirst, htype]
  · change netFragSkip frag pos 1 = _ at hs₂
    change netFragRead _ _ 1 true = _ at hr₂
    simp only [coapHeaderGetCode, coapHeaderGetCodeByte, hs₂, hr₂, bind_eq_bind, bind_some, if_neg hthere₂, hdata₂]
    rfl
  · change netFragSkip frag pos 2 = _ at hs₃
    change netFragRead _ _ 2 true = _ at hr₃
    have hid : be16 (htons m.id.toNat) = m.id := UInt16.toNat_inj.1 (be16_htons m.id.toNat_lt)
    simp only [coapHeaderGetId, hs₃, hr₃, bind_eq_bind, bind_some, if_neg hthere₃, hdata₃, hid]
  · simp only [coapHeaderGetToken, hr₁, bind_eq_bind, bind_some, hfirst, htkl]
    by_cases hempty : m.token = []
    · simp [hempty]
    · obtain ⟨s₄, r₄, hs₄, hr₄, hdata₄, hthere₄⟩ := skip_read
        (hwhole.part (Nat.le_refl _) (by simp only [length_append, length_cons, length_nil]; omega)) hat₄ hempty
      change netFragSkip frag pos 4 = _ at hs₄
      rw [if_neg (mt List.length_eq_zero_iff.1 hempty), hs₄, bind_some, hr₄, bind_some, if_neg hthere₄, hdata₄]

/-! ## The packet -/

variable {m : CoapMessage} {hdrs : List UInt8} {ipHdrLen ipv6ExtLen : Nat} {options : List CoapOption}

theorem CoapMessage.length_header (m : CoapMessage) : m.header.length = 4 + m.token.length := by
  simp only [CoapMessage.header, length_cons, length_append]
  change 2 + _ + 1 + 1 = _
  omega

theorem CoapMessage.length_wire (m : CoapMessage) :
    m.wire.length = 4 + m.token.length + m.optLen + m.payload.length := by
  rw [CoapMessage.wire, CoapMessage.optLen, bodyWire, length_append, length_append, m.length_header]
  split_ifs with h
  · simp only [h, length_nil]
    omega
  · rw [length_cons]
    omega

theorem CoapMessage.length_options_le (m : CoapMessage) : m.options.length ≤ m.wire.length := by
  have := optionsWire_length 0 m.options
  rw [CoapMessage.wire, length_append, length_append]
  omega

theorem getHeaderLen_spec (htoken : m.token.length ≤ 8) (hat : Before c frag pos (m.header ++ rest))
    (hsize : (m.header ++ rest).length < 2 ^ 16) : getHeaderLen frag pos = pure (4 + m.token.length) := by
  obtain ⟨-, -, htkl⟩ := coapHdr_fields m.ver m.type ⟨m.token.length, by omega⟩
  have hfirst : Before c frag pos ([coapHdr m.ver m.type m.token.length] ++
    (m.code :: (htons m.id.toNat ++ m.token) ++ rest)) := by
    simpa [CoapMessage.header] using hat
  obtain ⟨r, hr, hdata, -⟩ := netFragRead_before true (whole_one _ _) hfirst (cons_ne_nil _ _)
  obtain ⟨passed, hden, hc⟩ := hat
  have hlen : (bytes frag).length + passed.length = (bytes c).length + pos := hden.length
  rw [hc, length_append] at hlen
  have hrest : (bytes frag).length - pos = (m.header ++ rest).length := by omega
  have hheader := m.length_header
  rw [length_append] at hrest hsize
  have hread : getHeaderTkl frag pos = pure m.token.length := by
    change netFragRead frag pos 1 true = _ at hr
    have hlift : ExceptT.lift (netFragRead frag pos 1 true) = (pure r : Ret ReadResult) := by
      rw [hr]
      rfl
    rw [getHeaderTkl, hlift, pure_bind, hdata rfl]
    exact congrArg pure htkl
  have hshort : ¬ ((bytes frag).length - pos) % 2 ^ 16 < 4 := by
    rw [hrest, Nat.mod_eq_of_lt hsize]
    omega
  have hok : ¬ (8 < m.token.length ∨ ((bytes frag).length - pos) % 2 ^ 16 < 4 + m.token.length) := by
    rw [hrest, Nat.mod_eq_of_lt hsize]
    omega
  simp only [getHeaderLen, if_neg hshort, hread, pure_bind, if_neg hok]

theorem wholeOptions_of_whole {n prev : Nat} (h : Whole c n payload.length)
    (hn : (optionsWire prev os ++ bodyWire payload).length ≤ n + payload.length) : WholeOptions c payload prev os := by
  induction os generalizing prev with
  | nil => trivial
  | cons o os ih =>
    have hle := le_length_wire o.number os payload
    rw [optionsWire, append_assoc, length_append, optionWire, length_cons, length_append, length_append] at hn
    exact ⟨⟨h.part (by simp only [length_append] at hle ⊢; omega) (by simp only [length_append] at hn ⊢; omega),
      h.part (by rw [length_append]; omega) (by rw [length_append]; omega), h.part hle (by omega)⟩, ih (by omega)⟩

theorem readable_of_whole (hheaders : Whole c ((bytes c).length - m.wire.length) m.wire.length)
    (hmessage : Whole c (4 + m.token.length + m.optLen) m.payload.length) : m.Readable c := by
  have hlen := m.length_wire
  have hle := le_length_wire 0 m.options m.payload
  rw [CoapMessage.wire, length_append, m.length_header] at hlen
  exact ⟨hheaders, hmessage.part hle (by omega), wholeOptions_of_whole hmessage (by omega)⟩

/-- Behind the header there are the options. -/
theorem CoapMessage.Valid.ahead (hm : m.Valid) (h : m.Readable c) (hat : Before c frag pos m.wire) :
    ∃ (context : OptionContext) (v : List UInt8), OptionContext.read ⟨0, frag, pos⟩ (4 + m.token.length) false =
        pure (moreAt c (optionsWire 0 m.options ++ bodyWire m.payload), v, context) ∧ context.delta = 0 ∧
      context.Ahead c m.options m.payload := by
  have hwhole := h.header
  rw [← m.length_header] at hwhole
  obtain ⟨context, v, hread, -, hdelta, hbehind⟩ :=
    OptionContext.read_spec false hwhole (show OptionContext.At c ⟨0, frag, pos⟩ _ from hat) (cons_ne_nil _ _)
  rw [m.length_header] at hread
  exact ⟨context, v, hread, hdelta, by rw [hdelta]; exact h.options, by rwa [hdelta], hm.ascending,
    fun o _ => by rw [hdelta]; exact Nat.zero_le _, hm.numbers, hm.lengths⟩

theorem parseOptions_spec (fuel : Nat) (hm : m.Valid) (h : m.Readable c)
    (hends : m.payload = [] → moreAt c [] = false) (hat : Before c frag pos m.wire)
    (hfuel : m.options.length + 1 ≤ fuel) (hsize : m.wire.length < 2 ^ 16)
    (hplaces : ∀ x ∈ m.options.zip options, x.1.value.length ≤ x.2.value.length) :
    parseOptions fuel frag pos (4 + m.token.length) options = pure (storeParsed m.payload m.options options,
      m.optLen) := by
  obtain ⟨context, v, hread, hdelta, hahead⟩ := hm.ahead h hat
  rw [parseOptions, hread, pure_bind]
  by_cases hmore : m.options ≠ [] ∨ m.payload ≠ []
  · have hloop := parseLoop_spec fuel 0 hahead hends hmore hfuel hplaces
    have hoptLen : (0 + (optionsWire context.delta m.options).length + if m.payload = [] then 0 else 1) = m.optLen := by
      rw [hdelta, Nat.zero_add]
      rfl
    have hsmall : m.optLen % 2 ^ 16 = m.optLen := by
      have := m.length_wire
      exact Nat.mod_eq_of_lt (by omega)
    rw [hoptLen] at hloop
    simp only [moreAt_of_ne (wire_ne_nil.2 hmore), if_true, hloop, pure_bind, hsmall]
  · obtain ⟨hoptions, hpayload⟩ : m.options = [] ∧ m.payload = [] := by simpa [not_or] using hmore
    simp only [hoptions, hpayload, CoapMessage.optLen, optionsWire, bodyWire, if_true, append_nil, hends hpayload]
    rfl

/-- The payload is behind header and options, and is found there exactly if `opt_len` holds their size. -/
theorem coapPacketGetPayload_spec (hwhole : Whole c (4 + m.token.length + m.optLen) m.payload.length)
    (hc : bytes c = hdrs ++ m.wire)
    (hhdrs : hdrs.length = ipHdrLen + netUdphLen + ipv6ExtLen) (hsize : (bytes c).length < 2 ^ 16)
    (hat : Before c frag pos m.wire) :
    (m.optLen % 2 ^ 8 = m.optLen ∧ ∃ r, coapPacketGetPayload c ipHdrLen ipv6ExtLen
      ⟨frag, pos, 4 + m.token.length, m.optLen % 2 ^ 8⟩ =
      some (r, m.payload.length) ∧ (bytes r.frag).drop r.pos = m.payload) ↔ m.optLen < 2 ^ 8 := by
  refine ⟨fun h => by omega, fun hsmall => ?_⟩
  rw [Nat.mod_eq_of_lt hsmall]
  have hwire : m.wire = m.header ++ (optionsWire 0 m.options ++ if m.payload = [] then
    [] else [coapMarker]) ++ m.payload := by
    rw [CoapMessage.wire, bodyWire]
    split_ifs with h
    · simp [h]
    · simp
  have hlen : (m.header ++ (optionsWire 0 m.options ++ if m.payload = [] then [] else [coapMarker])).length =
    4 + m.token.length + m.optLen := by
    rw [length_append, m.length_header, length_append, CoapMessage.optLen]
    split_ifs <;> rfl
  rw [hwire] at hat
  rw [← hlen] at hwhole
  obtain ⟨r, hr, -, ⟨passed, hden, hpassed⟩, -⟩ := netFragRead_before false hwhole hat (cons_ne_nil _ _)
  rw [hlen] at hr
  refine ⟨rfl, r, ?_, ?_⟩
  · have hall : (bytes c).length = hdrs.length + (4 + m.token.length + m.optLen + m.payload.length) := by
      rw [hc, length_append, hwire, length_append, hlen]
    have hresult : (((bytes c).length - ipHdrLen - ipv6ExtLen - netUdphLen) % 2 ^ 16 + 2 ^ 16 -
        (4 + m.token.length) - m.optLen) % 2 ^ 16 = m.payload.length := by
      omega
    simp only [coapPacketGetPayload, netFragSkip, hr, bind_eq_bind, bind_some, hresult]
  · exact hden.drop.trans ((congrArg _ hpassed).trans drop_left)

variable {rx : CoapRx} {options' : List CoapOption}

/-- Whatever is accepted, the headers have been skipped at once. -/
theorem coapPacketParse_skips (h : coapPacketParse c ipHdrLen ipv6ExtLen options = pure (rx, options')) :
    ∃ s, netFragSkip c 0 (ipHdrLen + netUdphLen + ipv6ExtLen) = some s ∧ rx.frag = s.frag ∧ rx.offset = s.pos := by
  unfold coapPacketParse at h
  split_ifs at h
  · cases h
  obtain ⟨⟨more, v, context⟩, hread, h⟩ := Ret.of_bind_eq_pure h
  obtain ⟨s, hs, hfrag, hpos⟩ := OptionContext.read_cursor hread
  refine ⟨s, hs, ?_⟩
  rw [← hfrag, ← hpos]
  cases more with
  | false =>
    cases h
    exact ⟨rfl, rfl⟩
  | true =>
    obtain ⟨hdrLen, -, h⟩ := Ret.of_bind_eq_pure h
    obtain ⟨_, -, h⟩ := Ret.of_bind_eq_pure h
    cases h
    exact ⟨rfl, rfl⟩

section

variable (hm : m.Valid) (hc : bytes c = hdrs ++ m.wire) (hhdrs : hdrs.length = ipHdrLen + netUdphLen + ipv6ExtLen)
  (hsize : (bytes c).length < 2 ^ 16)

include hm hc hhdrs hsize

/-- Up to the options, the packet is accepted. -/
theorem coapPacketParse_eq (hwhole : Whole c ((bytes c).length - m.wire.length) m.wire.length) :
    ∃ frag pos, Before c frag pos m.wire ∧ ∀ options, coapPacketParse c ipHdrLen ipv6ExtLen options =
      ExceptT.adapt (fun _ => einval) (parseOptions ((bytes c).length + 1) frag pos
        (4 + m.token.length) options) >>= fun r =>
        pure (⟨frag, pos, 4 + m.token.length, r.2 % 2 ^ 8⟩, r.1) := by
  have hne : hdrs ≠ [] := length_pos_iff.1 (by rw [hhdrs, netUdphLen]; omega)
  have hlen : (bytes c).length = hdrs.length + m.wire.length := by rw [hc, length_append]
  rw [hlen, Nat.add_sub_cancel] at hwhole
  obtain ⟨context, v, hread, -, -, hat⟩ := OptionContext.read_spec false hwhole
    (show OptionContext.At c ⟨0, c, 0⟩ _ from ⟨[], Denotes.start c 0, hc⟩) (append_ne_nil_of_left_ne_nil hne _)
  rw [hhdrs, moreAt_of_ne (show m.wire ≠ [] from cons_ne_nil _ _)] at hread
  have hheader := getHeaderLen_spec hm.token hat (show m.wire.length < 2 ^ 16 by omega)
  have hpkt : c ≠ [] := by
    rintro rfl
    exact append_ne_nil_of_left_ne_nil hne _ hc.symm
  refine ⟨context.frag, context.offset, hat, fun options => ?_⟩
  rw [coapPacketParse, if_neg hpkt, hread, pure_bind]
  simp only [if_true, hheader, pure_bind]

section

variable (hparse : coapPacketParse c ipHdrLen ipv6ExtLen options = pure (rx, options'))

include hparse

theorem coapPacketParse_before (hwhole : Whole c ((bytes c).length - m.wire.length) m.wire.length) :
    Before c rx.frag rx.offset m.wire ∧ rx.hdrLen = 4 + m.token.length := by
  obtain ⟨frag, pos, hat, heq⟩ := coapPacketParse_eq hm hc hhdrs hsize hwhole
  rw [heq] at hparse
  obtain ⟨_, -, hpure⟩ := Ret.of_bind_eq_pure hparse
  cases hpure
  exact ⟨hat, rfl⟩

/-- A packet without a payload that is accepted does not end with an empty buffer. -/
theorem coapPacketParse_ends (h : m.Readable c) (hpayload : m.payload = []) : moreAt c [] = false := by
  by_contra hopen
  rw [Bool.not_eq_false] at hopen
  obtain ⟨frag, pos, hat, heq⟩ := coapPacketParse_eq hm hc hhdrs hsize h.headers
  obtain ⟨context, v, hread, -, hahead⟩ := hm.ahead h hat
  rw [hpayload] at hahead
  have hloop : ∀ r, parseLoop ((bytes c).length + 1) context options 0 ≠ pure r := parseLoop_open _ _ hahead hopen
  rw [heq, parseOptions, hread, pure_bind] at hparse
  simp only [moreAt_of_open hopen, if_true] at hparse
  generalize parseLoop _ context options 0 = r at hloop hparse
  obtain _ | _ | x := r
  · cases hparse
  · cases hparse
  · exact hloop x rfl

/-- **What is read as it was** has no empty buffer in the midst of what is passed over at once: the cursor would be
in front of the payload. -/
theorem CoapMessage.ReadBack.unbroken (h : m.ReadBack c ipHdrLen ipv6ExtLen options rx options') : m.Unbroken c := by
  have hlen : (bytes c).length = hdrs.length + m.wire.length := by rw [hc, length_append]
  have hwire := m.length_wire
  have hudp : netUdphLen = 8 := rfl
  obtain ⟨s, hskip, hfrag, hpos⟩ := coapPacketParse_skips hparse
  obtain ⟨r, hpayload, hdrop⟩ := h.payload
  obtain ⟨s', hskip', hs'⟩ := bind_eq_some_iff.1 hpayload
  obtain rfl := (Prod.mk.inj (some.inj hs')).1
  rw [h.hdrLen, h.optLen] at hskip'
  have hleft := congrArg length hdrop
  rw [length_drop] at hleft
  obtain ⟨hfront, hheaders⟩ := netFragRead_length hskip (by omega) (by omega)
  obtain ⟨hbehind, hmessage⟩ := netFragRead_length hskip' (by omega) (by rw [hfrag, hpos]; omega)
  rw [hfrag, hpos] at hbehind hmessage
  -- both skips have passed over all that they were to
  have hwhole : Whole c ((bytes c).length - m.wire.length) m.wire.length := fun q hq => by
    have := hheaders (by omega) q hq
    omega
  obtain ⟨⟨passed, hden, hpassed⟩, -⟩ := coapPacketParse_before hm hc hhdrs hsize hparse hwhole
  have hpassed' := congrArg length hpassed
  rw [length_append] at hpassed'
  have hmid : Whole c (4 + m.token.length + m.optLen) m.payload.length := fun q hq => by
    rcases emptiesAt_behind hden hq with hle | ⟨q', hq', heq⟩
    · omega
    · rw [hfrag] at hq'
      rw [hpos] at heq
      have := hmessage (by omega) q' hq'
      omega
  exact ⟨hwhole, hmid, coapPacketParse_ends hm hc hhdrs hsize hparse (readable_of_whole hwhole hmid)⟩

end

/-- What has been written as the format says is accepted, and it is read as it was exactly if its code is defined,
`opt_len` holds the size of the options and no option that is to be stored is passed over at the end. -/
theorem coapPacketParse_spec (hunbroken : m.Unbroken c)
    (hplaces : ∀ x ∈ m.options.zip options, x.1.value.length ≤ x.2.value.length) :
    ∃ cpkt options', coapPacketParse c ipHdrLen ipv6ExtLen options = pure (cpkt, options') ∧
      (m.ReadBack c ipHdrLen ipv6ExtLen options cpkt options' ↔
        m.code ∈ coapCodes ∧ m.optLen < 2 ^ 8 ∧ LastStored m.options options m.payload) := by
  have hreadable := readable_of_whole hunbroken.headers hunbroken.message
  obtain ⟨frag, pos, hat, hparse⟩ := coapPacketParse_eq hm hc hhdrs hsize hunbroken.headers
  have hlen : (bytes c).length = hdrs.length + m.wire.length := by rw [hc, length_append]
  have hfuel := m.length_options_le
  have hoptions :=
    parseOptions_spec ((bytes c).length + 1) hm hreadable hunbroken.ends hat (by omega) (by omega) hplaces
  refine ⟨⟨frag, pos, 4 + m.token.length, m.optLen % 2 ^ 8⟩, storeParsed m.payload m.options options,
    by rw [hparse, hoptions]; rfl, ?_⟩
  obtain ⟨hver, htype, hcode, hid, htoken⟩ :=
    coapHeader_spec (4 + m.token.length) (m.optLen % 2 ^ 8) hreadable.header hm.token hat
  have hpayload := coapPacketGetPayload_spec hunbroken.message hc hhdrs hsize hat
  have hdefined : (if m.code ∈ coapCodes then m.code else 0) = m.code ↔ m.code ∈ coapCodes := by
    split_ifs with h
    · exact iff_of_true rfl h
    · exact iff_of_false (fun h0 => h (by rw [← h0]; decide)) h
  constructor
  · intro h
    exact ⟨hdefined.1 (some.inj (hcode.symm.trans h.code)), hpayload.1 ⟨h.optLen, h.payload⟩,
      storeParsed_eq.1 h.options⟩
  · rintro ⟨hknown, hsmall, hlast⟩
    obtain ⟨hoptLen, hread⟩ := hpayload.2 hsmall
    exact ⟨hver, htype, by rw [hcode, hdefined.2 hknown], hid, htoken, rfl, storeParsed_eq.2 hlast, hoptLen, hread⟩

end

end

/-- **What is built is read back** (coap.c), over any headers in front and any chain, if there is space for the
packet and the builder writes what the format says: exactly if no empty buffer is in the midst of what is read at
once, the code is defined, options and marker are shorter than 256 bytes, and no option without a value that is to
be stored ends the packet. -/
theorem coap_roundTrip (m : CoapMessage) (hm : m.Valid) (hsound : OptionsSound 0 0 m.options)
    (pkt supply : List NetBuf) (hgrow : Growing pkt supply)
    (hempty : bytes pkt = []) (hfits : m.wire.length ≤ spaceLeft pkt supply) :
    ∃ tx, coapBuild pkt supply m = pure tx ∧ bytes tx.pkt = m.wire ∧
      ∀ (c : List NetBuf) (hdrs : List UInt8) (ipHdrLen ipv6ExtLen : Nat) (options : List CoapOption),
        bytes c = hdrs ++ m.wire → hdrs.length = ipHdrLen + netUdphLen + ipv6ExtLen → (bytes c).length < 2 ^ 16 →
        (∀ x ∈ m.options.zip options, x.1.value.length ≤ x.2.value.length) →
        ((∃ rx options', coapPacketParse c ipHdrLen ipv6ExtLen options = pure (rx, options') ∧
          m.ReadBack c ipHdrLen ipv6ExtLen options rx options') ↔
            m.Unbroken c ∧ m.code ∈ coapCodes ∧ m.optLen < 2 ^ 8 ∧ LastStored m.options options m.payload) := by
  obtain ⟨tx, hbuild, hbytes⟩ := coapBuild_spec hm hsound hgrow hempty hfits
  refine ⟨tx, hbuild, hbytes, fun c hdrs ipHdrLen ipv6ExtLen options hc hhdrs hsize hplaces => ⟨?_, ?_⟩⟩
  · rintro ⟨rx, options', hparse, hback⟩
    have hunbroken := hback.unbroken hm hc hhdrs hsize hparse
    obtain ⟨rx', options'', hparse', hiff⟩ := coapPacketParse_spec hm hc hhdrs hsize hunbroken hplaces
    cases hparse.symm.trans hparse'
    exact ⟨hunbroken, hiff.1 hback⟩
  · rintro ⟨hunbroken, h⟩
    obtain ⟨rx, options', hparse, hiff⟩ := coapPacketParse_spec hm hc hhdrs hsize hunbroken hplaces
    exact ⟨rx, options', hparse, hiff.2 h⟩

/-- A place for an option (coap.h:324). -/
def freshOption : CoapOption := ⟨0, 0, List.replicate 12 0⟩

/-- Two options, the second of a long value and a long delta, for one of which there is a place. -/
def twoOptions : CoapMessage := ⟨1, 0, [0xca, 0xfe], 1, 0x1234, [⟨11, [1, 2]⟩, ⟨60, List.replicate 20 3⟩], [9, 8, 7]⟩

/-- An empty buffer between the headers and the message, and one at the end. -/
def spread (m : CoapMessage) : List NetBuf := [⟨List.replicate 48 0, []⟩, ⟨[], [5]⟩, ⟨m.wire, []⟩, ⟨[], []⟩]

theorem coap_roundTrip_twoOptions :
    ∃ tx, coapBuild [⟨[], List.replicate 16 0⟩] [⟨[], List.replicate 32 0⟩] twoOptions = pure tx ∧
      ∃ rx options', coapPacketParse (spread twoOptions) 40 0 [freshOption] = pure (rx, options') ∧
        twoOptions.ReadBack (spread twoOptions) 40 0 [freshOption] rx options' := by
  obtain ⟨tx, hbuild, -, hread⟩ := coap_roundTrip twoOptions ⟨by decide, by decide, by decide, by decide⟩ (by decide)
    [⟨[], List.replicate 16 0⟩] [⟨[], List.replicate 32 0⟩] ⟨by decide, by decide, by decide, by decide⟩
    (by decide) (by decide)
  exact ⟨tx, hbuild, (hread (spread twoOptions) (List.replicate 48 0) 40 0 [freshOption] (by decide +kernel) rfl
    (by decide +kernel) (by decide)).2 ⟨⟨by decide +kernel, by decide +kernel, by decide⟩, by decide, by decide,
    by decide⟩⟩

/-- An option with a long delta and a short value. -/
def longDelta : CoapMessage := ⟨1, 0, [], 1, 7, [⟨300, [0xaa]⟩], [1, 2]⟩

/-- An option that `opt_len` does not hold. -/
def longValue : CoapMessage := ⟨1, 0, [], 1, 7, [⟨300, List.replicate 300 5⟩], [1]⟩

/-- The last option has no value, and there is no payload. -/
def emptyValue : CoapMessage := ⟨1, 0, [], 1, 7, [⟨4, []⟩], []⟩

def Ret.returns {α : Type} (m : Ret α) (p : α → Bool) : Bool :=
  match m.run with
  | some (.ok a) => p a
  | _ => false

def Ret.fails {α : Type} (m : Ret α) (e : ℤ) : Bool :=
  match m.run with
  | some (.error x) => x = e
  | _ => false

/-- **Where it goes wrong.** Two bytes that do not belong there follow the extension of a long delta (coap.c:986),
and the packet is rejected. Options of 305 bytes and the marker count as 50 in `opt_len`, and a payload of one byte
is taken for one of 257. The last option without a value is not stored. -/
theorem long_delta_is_rejected :
    (coapBuild [⟨[], List.replicate 16 0⟩] [] longDelta).returns (fun tx =>
      (coapPacketParse [⟨List.replicate 48 0 ++ bytes tx.pkt, []⟩] 40 0 [freshOption]).fails einval) ∧
    (coapBuild [⟨[], List.replicate 400 0⟩] [] longValue).returns (fun tx =>
      (coapPacketParse [⟨List.replicate 48 0 ++ bytes tx.pkt, []⟩] 40 0 []).returns fun r => r.1.optLen = 50 ∧
        (coapPacketGetPayload [⟨List.replicate 48 0 ++ bytes tx.pkt, []⟩] 40 0 r.1).map Prod.snd = some 257) ∧
    (coapBuild [⟨[], List.replicate 16 0⟩] [] emptyValue).returns fun tx =>
      (coapPacketParse [⟨List.replicate 48 0 ++ bytes tx.pkt, []⟩] 40 0 [freshOption]).returns fun r =>
        r.2 = [freshOption] := by
  decide +kernel

end Zephyr
