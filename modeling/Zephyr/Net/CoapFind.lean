import Zephyr.Net.Coap
/-!
# Options of a received packet (subsys/net/lib/coap/coap.c:695-715, :1048-1117, :1266-1354)

`coap_find_options` parses the options into the places of the caller, and takes a place whose number is the one
that it looks for as found, also if nothing has been stored there: at the marker, and for an option without a value
at the end of the packet.
-/
namespace Zephyr

open Chunks List

/-- The loop over the places from `&options[count]` on. -/
def findOptionsLoop (code : Nat) : Nat → OptionContext → List CoapOption → Nat → Ret (Nat × List CoapOption)
  | _, _, [], _ => pure (0, [])
  | 0, _, _, _ => ExceptT.mk none
  | fuel + 1, context, option :: options, optLen =>
    if code < context.delta then pure (0, option :: options)
    else do
      let p ← parseOption context (some option) optLen
      let option := p.option.getD option
      if option.delta = code then
        if p.more then
          let (count, options) ← findOptionsLoop code fuel p.context options p.optLen
          pure (count + 1, option :: options)
        else pure (1, option :: options)
      else if p.more then findOptionsLoop code fuel p.context (option :: options) p.optLen
      else pure (0, option :: options)

/-- With the number of options it returns, and the places as it leaves them. -/
def coapFindOptions (cpkt : CoapRx) (code : Nat) (options : List CoapOption) : Ret (Nat × List CoapOption) :=
  if cpkt.hdrLen = 0 then throw einval
  else do
    let (more, _, context) ← OptionContext.read ⟨0, cpkt.frag, cpkt.offset⟩ cpkt.hdrLen false
    if more then ExceptT.adapt (fun _ => einval) (findOptionsLoop code ((bytes cpkt.frag).length + 1) context options 0)
    else pure (0, options)

/-- The place has the option. -/
structure CoapOption.Has (p : CoapOption) (o : CoapOpt) : Prop where
  delta : p.delta = o.number
  len : p.len = o.value.length
  value : p.value.take p.len = o.value

/-- The options with a number, in order. -/
def CoapMessage.numbered (os : List CoapOpt) (code : Nat) : List CoapOpt := os.filter (·.number == code)

open CoapMessage (numbered)

/-- `r` is the number of options with the number, as far as there are places for them, and their values in order. -/
def FindsIn (os : List CoapOpt) (code : Nat) (options : List CoapOption) (r : Ret (Nat × List CoapOption)) : Prop :=
  ∃ options', r = pure (min options.length (numbered os code).length, options') ∧
    Forall₂ CoapOption.Has (options'.take (numbered os code).length) ((numbered os code).take options.length)

/-- **Where the places are filled as they should be**, behind an option with the number `prev`. Every option that
is parsed fits into its place. At the marker, the place does not have the number from before. A last option without
a value is not stored, and so its place is to have the number from before, without a value, if it is one that is
looked for, and not to have the number if it is not. -/
def findable (code : Nat) (payload : List UInt8) : Nat → List CoapOpt → List CoapOption → Bool
  | _, _, [] => true
  | prev, [], p :: _ => code < prev || payload = [] || p.delta ≠ code
  | prev, o :: os, p :: ps =>
    code < prev ||
      if o.value = [] ∧ os = [] ∧ payload = [] then
        if o.number = code then p.delta = code && p.len = 0 else p.delta ≠ code
      else o.value.length ≤ p.value.length &&
        findable code payload o.number os (if o.number = code then ps else p.store o.number o.value :: ps)

section

variable {c : List NetBuf} {os : List CoapOpt} {payload : List UInt8} {code : Nat} {options : List CoapOption}

theorem CoapOption.has_store (p : CoapOption) (o : CoapOpt) : (p.store o.number o.value).Has o :=
  ⟨rfl, rfl, take_left' rfl⟩

theorem CoapOption.has_iff {p : CoapOption} {o : CoapOpt} :
    p.Has o ↔ p.delta = o.number ∧ p.len = o.value.length ∧ p.value.take p.len = o.value :=
  ⟨fun h => ⟨h.delta, h.len, h.value⟩, fun h => ⟨h.1, h.2.1, h.2.2⟩⟩

theorem findable_end (prev : Nat) (ps : List CoapOption) : findable code [] prev [] ps = true := by
  cases ps <;> simp [findable]

theorem numbered_eq_nil (h : ∀ o ∈ os, o.number ≠ code) : numbered os code = [] :=
  filter_eq_nil_iff.2 fun o ho => by simpa using h o ho

theorem findsIn_pure {n : Nat} {options' : List CoapOption} : FindsIn os code options (pure (n, options')) ↔
    n = min options.length (numbered os code).length ∧
      Forall₂ CoapOption.Has (options'.take (numbered os code).length) ((numbered os code).take options.length) := by
  constructor
  · rintro ⟨_, ⟨⟩, hall⟩
    exact ⟨rfl, hall⟩
  · rintro ⟨rfl, hall⟩
    exact ⟨options', rfl, hall⟩

/-- An option with the number is in its place. -/
theorem findsIn_cons {o : CoapOpt} {p q : CoapOption} (hcode : o.number = code) (hhas : q.Has o)
    (r : Ret (Nat × List CoapOption)) :
    FindsIn (o :: os) code (p :: options) (r >>= fun (count, options) => pure (count + 1, q :: options)) ↔
    FindsIn os code options r := by
  have hcons : numbered (o :: os) code = o :: numbered os code := by simp [numbered, hcode]
  obtain _ | e | ⟨count, options'⟩ := r
  · exact iff_of_false (fun ⟨_, h, _⟩ => by cases h) fun ⟨_, h, _⟩ => by cases h
  · exact iff_of_false (fun ⟨_, h, _⟩ => by cases h) fun ⟨_, h, _⟩ => by cases h
  · refine findsIn_pure.trans (Iff.trans ?_ findsIn_pure.symm)
    rw [hcons, length_cons, length_cons, Nat.succ_min_succ, take_succ_cons, take_succ_cons, forall₂_cons,
      and_iff_right hhas]
    simp

theorem findsIn_skip {o : CoapOpt} {p : CoapOption} (hcode : o.number ≠ code)
    (r : Ret (Nat × List CoapOption)) {q : CoapOption} :
    FindsIn (o :: os) code (p :: options) r ↔ FindsIn os code (q :: options) r := by
  have hcons : numbered (o :: os) code = numbered os code := by simp [numbered, hcode]
  rw [FindsIn, FindsIn, hcons, length_cons, length_cons]

section

variable {context : OptionContext} {o : CoapOpt} {p : CoapOption} {ps : List CoapOption} (fuel optLen : Nat)

/-- A round of the loop at the marker. -/
theorem findOptionsLoop_marker (h : context.Ahead c [] payload) (hpayload : payload ≠ []) :
    FindsIn [] code (p :: ps) (findOptionsLoop code (fuel + 1) context (p :: ps) optLen) ↔
      findable code payload context.delta [] (p :: ps) = true := by
  obtain ⟨context', hparse⟩ := h.marker (some p) optLen hpayload
  by_cases hbeyond : code < context.delta
  · simp [findOptionsLoop, hbeyond, findsIn_pure, findable, numbered]
  · by_cases hstale : p.delta = code
    · simp [findOptionsLoop, hbeyond, hparse, hstale, findsIn_pure, findable, numbered, hpayload]
    · simp [findOptionsLoop, hbeyond, hparse, hstale, findsIn_pure, findable, numbered]

/-- At the last option, with nothing behind it. -/
theorem findOptionsLoop_last (h : context.Ahead c [o] []) (hend : moreAt c [] = false)
    (hbeyond : ¬ code < context.delta) (hplace : o.value.length ≤ p.value.length) :
    FindsIn [o] code (p :: ps) (findOptionsLoop code (fuel + 1) context (p :: ps) optLen) ↔
      findable code [] context.delta [o] (p :: ps) = true := by
  obtain ⟨context', hparse, -, -⟩ :=
    h.next optLen (show ∀ q ∈ some p, o.value.length ≤ q.value.length by rintro _ ⟨⟩; exact hplace) fun _ _ _ => hend
  rw [findOptionsLoop, if_neg hbeyond, hparse, pure_bind]
  simp only [findable, hbeyond, decide_false, Bool.false_or]
  by_cases hvalue : o.value = []
  · by_cases hcode : o.number = code <;> by_cases hstale : p.delta = code <;>
      simp [storeOption, optionsWire, bodyWire, hend, hvalue, hcode, hstale, findsIn_pure, numbered, CoapOption.has_iff]
    exact Or.inl
  · by_cases hcode : o.number = code <;>
      simp [storeOption, optionsWire, bodyWire, hend, hvalue, hcode, findsIn_pure, numbered, hplace, findable_end,
        CoapOption.store, CoapOption.has_iff]

/-- At an option that does not fit into its place. -/
theorem findOptionsLoop_tooLong (h : context.Ahead c (o :: os) payload) (hbeyond : ¬ code < context.delta)
    (hplace : ¬ o.value.length ≤ p.value.length) :
    FindsIn (o :: os) code (p :: ps) (findOptionsLoop code (fuel + 1) context (p :: ps) optLen) ↔
      findable code payload context.delta (o :: os) (p :: ps) = true := by
  have hthrow := h.tooLong optLen (Nat.lt_of_not_le hplace)
  have hvalue : o.value ≠ [] := fun h => hplace (by rw [h]; exact Nat.zero_le _)
  refine iff_of_false ?_ (by simp [findable, hbeyond, hvalue, hplace])
  rintro ⟨_, h, -⟩
  rw [findOptionsLoop, if_neg hbeyond, hthrow] at h
  cases h

end

/-- **The loop of `coap_find_options` (coap.c:1097).** The induction is on the options still to come. -/
theorem findOptionsLoop_spec (fuel optLen : Nat) (options : List CoapOption) {context : OptionContext}
    (h : context.Ahead c os payload)
    (hends : payload = [] → moreAt c [] = false) (hsome : os ≠ [] ∨ payload ≠ []) (hfuel : os.length + 1 ≤ fuel) :
    FindsIn os code options (findOptionsLoop code fuel context options optLen) ↔
    findable code payload context.delta os options = true := by
  induction os generalizing fuel optLen context options with
  | nil =>
    obtain ⟨fuel, rfl⟩ : ∃ f, fuel = f + 1 := ⟨fuel - 1, by omega⟩
    cases options with
    | nil => exact iff_of_true (findsIn_pure.2 ⟨rfl, .nil⟩) rfl
    | cons p ps => exact findOptionsLoop_marker fuel optLen h (by simpa using hsome)
  | cons o os ih =>
    obtain ⟨fuel, rfl⟩ : ∃ f, fuel = f + 1 := ⟨fuel - 1, by rw [length_cons] at hfuel; omega⟩
    cases options with
    | nil => exact iff_of_true ⟨[], by simp [findOptionsLoop], by simp⟩ rfl
    | cons p ps =>
      by_cases hbeyond : code < context.delta
      · have hnone : numbered (o :: os) code = [] := numbered_eq_nil fun x hx => by have := h.above x hx; omega
        exact iff_of_true ⟨p :: ps, by simp [findOptionsLoop, hbeyond, hnone], by simp [hnone]⟩
          (by simp [findable, hbeyond])
      by_cases hplace : o.value.length ≤ p.value.length
      · by_cases hmore : os ≠ [] ∨ payload ≠ []
        · -- the option is stored, and the loop goes on behind it
          obtain ⟨context', hparse, hdelta, hahead⟩ :=
            h.next optLen (show ∀ q ∈ some p, o.value.length ≤ q.value.length by rintro _ ⟨⟩; exact hplace)
              fun _ _ => hends
          have hrest : optionsWire o.number os ++ bodyWire payload ≠ [] := wire_ne_nil.2 hmore
          have hlast : ¬ (o.value = [] ∧ os = [] ∧ payload = []) := fun h => (not_and_or.2 hmore) h.2
          have hnext := fun ps' => ih fuel (optLen + (optionWire (o.number - context.delta) o.value).length) ps' hahead
            hmore (Nat.le_of_succ_le_succ hfuel)
          rw [hdelta] at hnext
          rw [findOptionsLoop, if_neg hbeyond, hparse, pure_bind]
          simp only [findable, hbeyond, decide_false, Bool.false_or, storeOption, hrest, and_false, if_false,
            Option.map_some, Option.getD_some, moreAt_of_ne hrest, if_true, if_neg hlast,
            hplace, decide_true, Bool.true_and, CoapOption.store]
          by_cases hcode : o.number = code
          · rw [if_pos hcode, if_pos hcode, ← hnext]
            exact findsIn_cons hcode (p.has_store o) _
          · rw [if_neg hcode, if_neg hcode, ← hnext]
            exact findsIn_skip hcode _
        · obtain ⟨rfl, rfl⟩ : os = [] ∧ payload = [] := by simpa [not_or] using hmore
          exact findOptionsLoop_last fuel optLen h (hends rfl) hbeyond hplace
      · exact findOptionsLoop_tooLong fuel optLen h hbeyond hplace

/-- The packet `c` has the message behind its headers and has been accepted as `rx`. -/
structure CoapMessage.Accepted (m : CoapMessage) (c : List NetBuf) (rx : CoapRx) : Prop where
  valid : m.Valid
  readable : m.Readable c
  size : (bytes c).length < 2 ^ 16
  parsed : ∃ hdrs ipHdrLen ipv6ExtLen places places', bytes c = hdrs ++ m.wire ∧
    hdrs.length = ipHdrLen + netUdphLen + ipv6ExtLen ∧
    coapPacketParse c ipHdrLen ipv6ExtLen places = pure (rx, places')

variable {m : CoapMessage} {rx : CoapRx}

theorem CoapMessage.Accepted.before (h : m.Accepted c rx) : Before c rx.frag rx.offset m.wire ∧
    rx.hdrLen = 4 + m.token.length ∧ (m.payload = [] → moreAt c [] = false) := by
  obtain ⟨hdrs, ipHdrLen, ipv6ExtLen, places, places', hc, hhdrs, hparse⟩ := h.parsed
  obtain ⟨hat, hhdr⟩ := coapPacketParse_before h.valid hc hhdrs h.size hparse h.readable.headers
  exact ⟨hat, hhdr, coapPacketParse_ends h.valid hc hhdrs h.size hparse h.readable⟩

theorem findsIn_adapt {r : Ret (Nat × List CoapOption)} :
    FindsIn os code options (ExceptT.adapt (fun _ => einval) r) ↔ FindsIn os code options r := by
  obtain _ | e | x := r
  · exact iff_of_false (fun ⟨_, h, _⟩ => by cases h) fun ⟨_, h, _⟩ => by cases h
  · exact iff_of_false (fun ⟨_, h, _⟩ => by cases h) fun ⟨_, h, _⟩ => by cases h
  · exact Iff.rfl

end

/-- **`coap_find_options` (coap.c:1074)** of an accepted packet: the options with the number are found, and their
values in order, exactly if the message and the places are `findable`. -/
theorem coapFindOptions_finds (m : CoapMessage) (c : List NetBuf) (rx : CoapRx) (h : m.Accepted c rx)
    (code : Nat) (options : List CoapOption) :
    FindsIn m.options code options (coapFindOptions rx code options) ↔
    findable code m.payload 0 m.options options = true := by
  obtain ⟨hat, hhdr, hends⟩ := h.before
  obtain ⟨context, v, hread, hdelta, hahead⟩ := h.valid.ahead h.readable hat
  rw [← hhdr] at hread
  rw [coapFindOptions, if_neg (by omega), hread, pure_bind]
  by_cases hmore : m.options ≠ [] ∨ m.payload ≠ []
  · have hfuel : m.options.length + 1 ≤ (bytes rx.frag).length + 1 := by
      obtain ⟨passed, hden, hc⟩ := hat
      have hlen : (bytes rx.frag).length + passed.length = (bytes c).length + rx.offset := hden.length
      have := m.length_options_le
      rw [hc, length_append] at hlen
      omega
    have hloop := @findOptionsLoop_spec _ _ _ code _ 0 options _ hahead hends hmore hfuel
    rw [hdelta] at hloop
    simp only [moreAt_of_ne (wire_ne_nil.2 hmore), if_true]
    exact findsIn_adapt.trans hloop
  · obtain ⟨hoptions, hpayload⟩ : m.options = [] ∧ m.payload = [] := by simpa [not_or] using hmore
    simp only [hoptions, hpayload, optionsWire, bodyWire, if_true, append_nil, hends hpayload, Bool.false_eq_true,
      if_false]
    exact iff_of_true (findsIn_pure.2 ⟨by simp [numbered], by simp [numbered]⟩) (findable_end _ _)

/-- A packet in one buffer, behind the headers. -/
def oneBuffer (m : CoapMessage) : List NetBuf := [⟨List.replicate 48 0 ++ m.wire, []⟩]

/-- Two options with the number 11, the second without a value, and the payload behind it. -/
def twoPaths : CoapMessage := ⟨1, 0, [], 1, 7, [⟨4, [1]⟩, ⟨11, [2, 3]⟩, ⟨11, []⟩], [9]⟩

theorem coapFindOptions_finds_twoPaths : ∃ rx, twoPaths.Accepted (oneBuffer twoPaths) rx ∧
    FindsIn twoPaths.options 11 [freshOption, freshOption, freshOption]
    (coapFindOptions rx 11 [freshOption, freshOption, freshOption]) := by
  have hvalid : twoPaths.Valid := ⟨by decide, by decide, by decide, by decide⟩
  have hunbroken : twoPaths.Unbroken (oneBuffer twoPaths) :=
    ⟨by decide +kernel, by decide +kernel, by decide⟩
  have hc : bytes (oneBuffer twoPaths) = List.replicate 48 0 ++ twoPaths.wire := by decide +kernel
  obtain ⟨rx, places', hparse, -⟩ := coapPacketParse_spec hvalid hc (show _ = 40 + netUdphLen + 0 from rfl)
    (by decide +kernel) hunbroken (show ∀ x ∈ twoPaths.options.zip [], _ from nofun)
  have h : twoPaths.Accepted (oneBuffer twoPaths) rx :=
    ⟨hvalid, readable_of_whole hunbroken.headers hunbroken.message, by decide +kernel, _, _, _, _, _, hc, rfl, hparse⟩
  exact ⟨rx, h, (coapFindOptions_finds twoPaths _ rx h 11 _).2 (by decide)⟩

/-- **Where it goes wrong.** The last option has no value and is not found. A packet without options is taken to
have the one that a place has been left with. And an option that is not looked for is too long for a place, and the
packet is rejected that has been accepted. -/
theorem stale_place_is_found :
    (coapPacketParse (oneBuffer emptyValue) 40 0 []).returns (fun r =>
      (coapFindOptions r.1 4 [freshOption]).returns fun f => f.1 = 0) ∧
    (coapPacketParse (oneBuffer { emptyValue with options := [], payload := [1] }) 40 0 []).returns (fun r =>
      (coapFindOptions r.1 4 [{ freshOption with delta := 4 }]).returns fun f => f.1 = 1) ∧
    (coapPacketParse (oneBuffer twoOptions) 40 0 []).returns (fun r =>
      (coapFindOptions r.1 61 [freshOption]).fails einval) := by
  decide +kernel

end Zephyr
