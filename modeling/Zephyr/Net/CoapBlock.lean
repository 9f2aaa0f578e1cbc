import Zephyr.Net.CoapFind
/-!
# Integers and blocks in CoAP options (subsys/net/lib/coap/coap.c:695-715, :1048-1072, :1279-1354)

Values of `unsigned int` are numbers below 2 ^ 32; what is put together with `|` or shifted has no bits in common.
A place that is not initialised (coap.c:1346) has any contents.
-/
namespace Zephyr

open List

/-- `data` and its length. -/
def optionInt (val : Nat) : List UInt8 :=
  if val = 0 then []
  else if val < 0xff then [UInt8.ofNat val]
  else if val < 0xffff then htons val
  else if val < 0xffffff then htons val ++ [UInt8.ofNat (val / 65536)]
  else htons (val / 65536) ++ htons val

def coapAppendOptionInt (cpkt : CoapTx) (code val : Nat) : Ret CoapTx :=
    coapPacketAppendOption cpkt code (optionInt val)

def coapOptionValueToInt (option : CoapOption) : Nat :=
  let value := fun i => (option.value.getD i 0).toNat
  match option.len with
  | 1 => value 0
  | 2 => value 1 + value 0 * 256
  | 3 => value 2 + value 1 * 256 + value 0 * 65536
  | 4 => value 2 + value 2 * 256 + value 1 * 65536 + value 0 * 16777216
  | _ => 0

structure CoapBlockContext where
  totalSize : Nat
  current : Nat
  blockSize : Fin 7

def coapBlockSizeToBytes (blockSize : Fin 7) : Nat := 2 ^ (blockSize.val + 4)

def isRequest (code : UInt8) : Bool := code &&& 0xf8 == 0

/-- `SET_BLOCK_SIZE`, `SET_MORE` and `SET_NUM`. -/
def setBlock (size : Nat) (more : Bool) (num : Nat) : Nat := size % 8 + (if more then 8 else 0) + num * 2 ^ 4 % 2 ^ 32

def CoapBlockContext.more (ctx : CoapBlockContext) : Bool :=
    (ctx.current + coapBlockSizeToBytes ctx.blockSize) % 2 ^ 32 < ctx.totalSize

def CoapBlockContext.num (ctx : CoapBlockContext) : Nat := ctx.current / coapBlockSizeToBytes ctx.blockSize

def CoapBlockContext.value (ctx : CoapBlockContext) (withMore : Bool) : Nat :=
    setBlock ctx.blockSize (withMore && ctx.more) ctx.num

/-- In a packet with the code `hdrCode`. -/
def coapAppendBlock1Option (cpkt : CoapTx) (hdrCode : UInt8) (ctx : CoapBlockContext) : Ret CoapTx :=
  coapAppendOptionInt cpkt 27 (ctx.value (isRequest hdrCode))

def coapAppendBlock2Option (cpkt : CoapTx) (hdrCode : UInt8) (ctx : CoapBlockContext) : Ret CoapTx :=
  coapAppendOptionInt cpkt 23 (ctx.value (!isRequest hdrCode))

/-- `GET_NUM`, `GET_MORE` and `GET_BLOCK_SIZE`. -/
def getBlock (val : Nat) : Nat × Bool × Nat := (val / 2 ^ 4, val / 8 % 2 == 1, val % 8)

/-- The result is an `int`. -/
def getBlockOption (option : CoapOption) (cpkt : CoapRx) (code : Nat) : Option ℤ :=
  (coapFindOptions cpkt code [option]).run.map fun
    | .ok (count, options) => if count = 0 then
        enoent else ((coapOptionValueToInt (options.headD option) : Nat) : ℤ).bmod (2 ^ 32)
    | .error _ => enoent

/-! ## There and back -/

/-- The values that are read as they were written. -/
def Restored (v : Nat) : Prop :=
  v < 0xffff ∨ v < 0xffffff ∧ v % 256 = v / 256 % 256 ∧ v / 256 % 256 = v / 65536 ∨
  0xffffff ≤ v ∧ v % 256 = v / 256 % 256

theorem getD_of_has {p : CoapOption} {o : CoapOpt} (h : p.Has o) {i : Nat} (hi : i < o.value.length) :
    p.value.getD i 0 = o.value.getD i 0 := by
  rw [← h.value, h.len]
  simp [getD_eq_getElem?_getD, hi]

theorem coapOptionValueToInt_eq {p : CoapOption} {code v : Nat} (hv : v < 2 ^ 32) (h : p.Has ⟨code, optionInt v⟩) :
    coapOptionValueToInt p = v ↔ Restored v := by
  have hget := fun i (hi : i < (optionInt v).length) => getD_of_has h hi
  have hlen := h.len
  -- the four bytes of the value
  obtain ⟨b₀, h₀⟩ : ∃ b, v % 256 = b := ⟨_, rfl⟩
  obtain ⟨b₁, h₁⟩ : ∃ b, v / 256 % 256 = b := ⟨_, rfl⟩
  obtain ⟨b₂, h₂⟩ : ∃ b, v / 65536 % 256 = b := ⟨_, rfl⟩
  obtain ⟨b₃, h₃⟩ : ∃ b, v / 65536 / 256 % 256 = b := ⟨_, rfl⟩
  have hsum : v = b₀ + b₁ * 256 + b₂ * 65536 + b₃ * 16777216 := by omega
  have hhigh : v / 65536 = b₂ + b₃ * 256 := by omega
  unfold coapOptionValueToInt Restored
  unfold optionInt at hget hlen
  simp only at hget hlen
  split_ifs at hget hlen <;> simp only [length_cons, length_nil, length_append, htons] at hget hlen <;> simp only [hlen]
  · omega
  · simp only [hget 0 (by decide), getD_cons_zero, UInt8.toNat_ofNat']
    omega
  · simp only [hget 0 (by decide), hget 1 (by decide), getD_cons_zero, getD_cons_succ, UInt8.toNat_ofNat']
    omega
  · simp only [hget 0 (by decide), hget 1 (by decide), hget 2 (by decide), getD_cons_zero, getD_cons_succ,
      cons_append, nil_append, UInt8.toNat_ofNat',
      Nat.reducePow, h₀, h₁, h₂]
    rw [hhigh]
    have hbytes : b₀ < 256 ∧ b₁ < 256 ∧ b₂ < 256 ∧ b₃ = 0 := by omega
    clear h₀ h₁ h₂ h₃ hhigh
    omega
  · simp only [hget 0 (by decide), hget 1 (by decide), hget 2 (by decide), getD_cons_zero, getD_cons_succ,
      cons_append, nil_append, UInt8.toNat_ofNat',
      Nat.reducePow, h₀, h₁, h₂, h₃]
    rw [hhigh]
    omega

/-- It has as few bytes as the value needs, but for three values. -/
theorem optionInt_minimal {v : Nat} (hv : v < 2 ^ 32) :
    (∀ n, v < 256 ^ n → (optionInt v).length ≤ n) ↔ v ≠ 0xff ∧ v ≠ 0xffff ∧ v ≠ 0xffffff := by
  have hlen : (optionInt v).length = if v = 0 then 0 else if v < 0xff then 1 else if v < 0xffff then
    2 else if v < 0xffffff then 3 else 4 := by
    unfold optionInt
    split_ifs <;> rfl
  rw [hlen]
  constructor
  · intro h
    have h₁ := h 1
    have h₂ := h 2
    have h₃ := h 3
    split_ifs at h₁ h₂ h₃ <;> omega
  · rintro hne n hn
    by_contra hlt
    have h256 : n = 0 ∨ n = 1 ∨ n = 2 ∨ n = 3 ∨ 4 ≤ n := by omega
    rcases h256 with rfl | rfl | rfl | rfl | h4 <;> split_ifs at hlt <;> omega

theorem getBlock_setBlock {size : Nat} (hsize : size < 8) (more : Bool) {num : Nat} (hnum : num < 2 ^ 28) :
    getBlock (setBlock size more num) = (num, more, size) := by
  rw [getBlock, setBlock]
  cases more <;> simp <;> omega

theorem coapOptionValueToInt_lt (p : CoapOption) : coapOptionValueToInt p < 2 ^ 32 := by
  have hbyte := fun i => UInt8.toNat_lt (p.value.getD i 0)
  have h₀ := hbyte 0
  have h₁ := hbyte 1
  have h₂ := hbyte 2
  unfold coapOptionValueToInt
  dsimp only
  split <;> omega

/-- The value of an option that is found is returned as an `int`. -/
theorem getBlockOption_eq {rx : CoapRx} {option p : CoapOption} {code v : Nat}
    (hfind : coapFindOptions rx code [option] = pure (1, [p])) (hhas : p.Has ⟨code, optionInt v⟩) (hv : v < 2 ^ 32) :
    getBlockOption option rx code = some (v : ℤ) ↔ Restored v ∧ v < 2 ^ 31 := by
  have hlt := coapOptionValueToInt_lt p
  have hres : getBlockOption option rx code = some ((coapOptionValueToInt p : ℤ).bmod (2 ^ 32)) := by
    rw [getBlockOption, hfind]
    change some (ite ((1 : Nat) = 0) _ _) = _
    rw [if_neg Nat.one_ne_zero, headD_cons]
  rw [hres, Option.some.injEq, ← coapOptionValueToInt_eq hv hhas, Int.bmod_def]
  generalize coapOptionValueToInt p = w at *
  split <;> omega

/-- `append` puts the option with the number and the integer behind what is there. -/
def AppendsInt (append : CoapTx → Ret CoapTx) (code v : Nat) : Prop :=
  ∀ pkt supply content total hdrLen optLen lastDelta, Built pkt supply content total → 1 ≤ hdrLen →
  hdrLen ≤ content.length → lastDelta ≤ code → (lastDelta = 0 ∨ optLen ≠ 0) →
    (content ++ optionWire (code - lastDelta) (optionInt v)).length ≤ total →
    ∃ pkt' supply' optLen', append ⟨pkt, supply, hdrLen, optLen, lastDelta⟩ = pure ⟨pkt', supply', hdrLen,
      optLen', code⟩ ∧
      bytes pkt' = content ++ optionWire (code - lastDelta) (optionInt v)

theorem coapAppendOptionInt_spec {code : Nat} (hcode : code < 269) (v : Nat) :
    AppendsInt (coapAppendOptionInt · code v) code v := by
  intro pkt supply content total hdrLen optLen lastDelta h hhdr hlen hasc hwrap hfits
  have hshort : (optionInt v).length < 269 := by
    unfold optionInt
    split_ifs <;> simp [htons]
  have hsmall : ¬ 269 ≤ code - lastDelta := by omega
  obtain ⟨pkt', supply', hb, happend⟩ := coapPacketAppendOption_spec h ⟨hhdr, hlen⟩ hasc (by omega) hwrap
    (.inr (iff_of_false hsmall (Nat.not_le.2 hshort))) hfits
  exact ⟨pkt', supply', _, happend, hb.bytes⟩

theorem CoapBlockContext.num_lt {ctx : CoapBlockContext} (h : ctx.current < 2 ^ 32) : ctx.num < 2 ^ 28 := by
  have hsize : 2 ^ 4 ≤ coapBlockSizeToBytes ctx.blockSize := Nat.pow_le_pow_right (by decide) (Nat.le_add_left 4 _)
  exact Nat.div_lt_of_lt_mul (Nat.lt_of_lt_of_le h (Nat.mul_le_mul_right (2 ^ 28) hsize))

/-- **Integers and blocks in options**: which integers are read as they were written, and which take more bytes
than they need. And the block that `coap_append_block1_option` or `coap_append_block2_option` has written is the
one that is returned for the option, if that is found, exactly if its integer is one of them and does not have the
sign bit. -/
theorem coap_int_options (v : Nat) (hv : v < 2 ^ 32) :
    (∀ p code, CoapOption.Has p ⟨code, optionInt v⟩ → (coapOptionValueToInt p = v ↔ Restored v)) ∧
    ((∀ n, v < 256 ^ n → (optionInt v).length ≤ n) ↔ v ≠ 0xff ∧ v ≠ 0xffff ∧ v ≠ 0xffffff) ∧
    ∀ ctx : CoapBlockContext, ctx.current < 2 ^ 32 →
      (∀ hdrCode, AppendsInt (coapAppendBlock1Option · hdrCode ctx) 27 (ctx.value (isRequest hdrCode)) ∧
        AppendsInt (coapAppendBlock2Option · hdrCode ctx) 23 (ctx.value (!isRequest hdrCode))) ∧
      ∀ withMore, getBlock (ctx.value withMore) = (ctx.num, withMore && ctx.more, ctx.blockSize.val) ∧
        ∀ rx code option p, coapFindOptions rx code [option] = pure (1, [p]) →
        p.Has ⟨code, optionInt (ctx.value withMore)⟩ →
          (getBlockOption option rx code = some (ctx.value withMore : ℤ) ↔ Restored (ctx.value withMore) ∧
            ctx.value withMore < 2 ^ 31) := by
  refine ⟨fun p code h => coapOptionValueToInt_eq hv h, optionInt_minimal hv, fun ctx hcurrent =>
    ⟨fun hdrCode => ?_, fun withMore => ?_⟩⟩
  · exact ⟨coapAppendOptionInt_spec (by decide) _, coapAppendOptionInt_spec (by decide) _⟩
  · have hnum := ctx.num_lt hcurrent
    have hvalue : ctx.value withMore < 2 ^ 32 := by
      rw [CoapBlockContext.value, setBlock]
      split <;> omega
    exact ⟨getBlock_setBlock (by omega) _ hnum, fun rx code option p hfind hhas => getBlockOption_eq hfind hhas hvalue⟩

/-- The third block of 64 bytes, and there are more. -/
def thirdBlock : CoapRx := ⟨oneBuffer ⟨1, 0, [], 1, 7, [⟨27, optionInt 42⟩], [9]⟩, 48, 4, 4⟩

theorem coap_int_options_block :
    coapFindOptions thirdBlock 27 [freshOption] = pure (1, [⟨27, 1, 42 :: List.replicate 11 0⟩]) ∧
    getBlockOption freshOption thirdBlock 27 = some 42 ∧ getBlock 42 = (2, true, 2) := by
  have hfind : (coapFindOptions thirdBlock 27 [freshOption]).run = some
    (.ok (1, [⟨27, 1, 42 :: List.replicate 11 0⟩])) := by
    decide +kernel
  obtain ⟨hget, hread⟩ := ((coap_int_options 42 (by decide)).2.2 ⟨1000, 128, 2⟩ (by decide)).2 true
  exact ⟨hfind, (hread _ _ _ _ hfind ⟨rfl, rfl, rfl⟩).2 ⟨.inl (by decide), by decide⟩, hget⟩

/-- **Where it goes wrong.** The value 0x10203 is written as 2, 3, 1 and read as 0x20301; 0x1020304 is read as
0x1020303; 0xff and 0xffff take one byte more than they need, and the latter is read as 0xffff00. -/
theorem three_bytes_reordered :
    optionInt 0x10203 = [2, 3, 1] ∧ coapOptionValueToInt ⟨6, 3, [2, 3, 1]⟩ = 0x20301 ∧
    optionInt 0x1020304 = [1, 2, 3, 4] ∧
    coapOptionValueToInt ⟨6, 4, [1, 2, 3, 4]⟩ = 0x1020303 ∧ optionInt 0xff = [0, 0xff] ∧
    optionInt 0xffff = [0xff, 0xff, 0] ∧
    coapOptionValueToInt ⟨6, 3, [0xff, 0xff, 0]⟩ = 0xffff00 := by
  decide

end Zephyr
