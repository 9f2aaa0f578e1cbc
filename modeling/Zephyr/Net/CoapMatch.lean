import Mathlib.Data.List.Induction
import Zephyr.Net.CoapBlock
/-!
# Pending requests and replies of CoAP (subsys/net/lib/coap/coap.c:535-600, :716-776)

Of a pending request there is the number of references to its packet. A reply is called through the record that is
selected, and this is the end of the function; records are arrays of any length.
-/
namespace Zephyr

open List

structure CoapPending where
  timeout : ℤ
  id : UInt16
  refs : Nat
deriving DecidableEq

/-- The pending request that is found, and where. -/
def coapPendingNextToExpire (pendings : List CoapPending) : Option (CoapPending × Nat) :=
  pendings.zipIdx.foldl (fun found p => if p.1.timeout ≠ 0 ∧ (∀ f ∈ found, f.1.timeout < p.1.timeout) then
    some p else found) none

/-- `init` is `INIT_ACK_TIMEOUT`. -/
def nextTimeout (init previous : ℤ) : ℤ :=
  if previous = init ∨ previous = init * 2 ∨ previous = init * 4 then previous * 2
  else if previous = init * 8 then previous
  else init

def coapPendingCycle (init : ℤ) (pending : CoapPending) : Bool × CoapPending :=
  let timeout := nextTimeout init pending.timeout
  let cont := pending.timeout != timeout
  (cont, { pending with timeout := timeout, refs := if cont then pending.refs + 1 else pending.refs })

/-- What `n` calls return, and the pending request behind them. -/
def cycles (init : ℤ) : Nat → CoapPending → List Bool × CoapPending
  | 0, pending => ([], pending)
  | n + 1, pending =>
    let (cont, pending) := coapPendingCycle init pending
    let (conts, pending) := cycles init n pending
    (cont :: conts, pending)

structure CoapReply where
  age : ℤ
  token : List UInt8
  id : UInt16
  tkl : Nat
deriving DecidableEq

def getObserveOption (cpkt : CoapRx) : Option ℤ := getBlockOption freshOption cpkt 6

def responseLoop (response : CoapRx) (id : UInt16) (token : List UInt8) :
    List CoapReply → Option (Option Nat × List CoapReply)
  | [] => some (none, [])
  | r :: replies =>
    let next := (responseLoop response id token replies).map fun (found, replies) => (found.map (· + 1), r :: replies)
    if r.id = 0 ∧ r.tkl = 0 then next
    else if r.id ≠ id ∧ token = [] then next
    else if token ≠ [] ∧ r.token.take token.length ≠ token then next
    else (getObserveOption response).bind fun age =>
      if 0 < age ∧ age < r.age ∧ age ≠ 2 then next
      else some (some 0, (if 0 < age then { r with age := age } else r) :: replies)

/-- The place of the record that is selected, and the records. -/
def coapResponseReceived (response : CoapRx) (replies : List CoapReply) : Option (Option Nat × List CoapReply) := do
  let id ← coapHeaderGetId response
  let token ← coapHeaderGetToken response
  responseLoop response id token replies

/-! ## Selection -/

/-- Of the requests that are waiting, one with the longest time left. -/
theorem coapPendingNextToExpire_spec (pendings : List CoapPending) :
    match coapPendingNextToExpire pendings with
    | none => ∀ p ∈ pendings, p.timeout = 0
    | some (p, i) => pendings[i]? = some p ∧ p.timeout ≠ 0 ∧ ∀ q ∈ pendings, q.timeout ≠ 0 → q.timeout ≤ p.timeout := by
  unfold coapPendingNextToExpire
  induction pendings using reverseRecOn with
  | nil => simp
  | append_singleton ps p ih =>
    rw [zipIdx_append, foldl_append]
    simp only [zipIdx_cons, zipIdx_nil, foldl_cons, foldl_nil, Nat.zero_add, forall_mem_append, forall_mem_singleton]
    generalize ps.zipIdx.foldl _ none = found at *
    obtain _ | ⟨f, i⟩ := found
    · by_cases hp : p.timeout = 0
      · simpa [hp] using ih
      · simpa [hp] using fun q hq hne => absurd (ih q hq) hne
    · obtain ⟨hat, hne, hmax⟩ := ih
      by_cases hp : p.timeout ≠ 0 ∧ f.timeout < p.timeout
      · simpa [hp] using fun q hq hq0 => Int.le_trans (hmax q hq hq0) (Int.le_of_lt hp.2)
      · rw [if_neg (by simpa using hp)]
        refine ⟨?_, hne, hmax, fun hp0 => Int.not_lt.1 fun hlt => hp ⟨hp0, hlt⟩⟩
        rw [getElem?_append_left (List.getElem?_eq_some_iff.1 hat).1, hat]

/-- The record is in use, and the response that `id` and `token` are of is taken for an answer to it: as many bytes
of the token are compared as the response has. `age` is what `get_observe_option` returns. -/
def CoapReply.Answered (age : ℤ) (id : UInt16) (token : List UInt8) (r : CoapReply) : Bool :=
  ¬ (r.id = 0 ∧ r.tkl = 0) ∧ (token = [] → r.id = id) ∧ (token ≠ [] → r.token.take token.length = token) ∧
  ¬ (0 < age ∧ age < r.age ∧ age ≠ 2)

variable {response : CoapRx} {id : UInt16} {token : List UInt8}

/-- **`coap_response_received` (coap.c:743)** selects the first record that is answered. -/
theorem responseLoop_first {age : ℤ} (hage : getObserveOption response = some age) (replies : List CoapReply) :
    (responseLoop response id token replies).map Prod.fst = some
    (replies.findIdx? (CoapReply.Answered age id token)) := by
  induction replies with
  | nil => rfl
  | cons r rs ih =>
    have hnext : ((responseLoop response id token rs).map fun (found, replies) =>
      (found.map (· + 1), r :: replies)).map Prod.fst =
        some ((rs.findIdx? (CoapReply.Answered age id token)).map (· + 1)) := by
      rw [Option.map_map]
      exact (Option.map_map (Option.map (· + 1)) Prod.fst _).symm.trans (by rw [ih]; rfl)
    rw [responseLoop, hage, Option.bind_some, findIdx?_cons]
    by_cases hanswered : r.Answered age id token = true
    · obtain ⟨hused, hid, htoken, hage⟩ := of_decide_eq_true hanswered
      rw [if_pos hanswered, if_neg hused, if_neg fun h => h.1 (hid h.2), if_neg fun h => h.2 (htoken h.1), if_neg hage]
      rfl
    · rw [if_neg hanswered]
      split_ifs with hunused hid htoken hold
      · exact hnext
      · exact hnext
      · exact hnext
      · exact hnext
      all_goals exact absurd (decide_eq_true ⟨hunused, fun h => not_not.1 fun hne => hid ⟨hne, h⟩,
          fun h => not_not.1 fun hne => htoken ⟨h, hne⟩, hold⟩) hanswered

theorem observed_of_selected {replies replies' : List CoapReply} {i : Nat}
    (h : responseLoop response id token replies = some (some i, replies')) :
    ∃ age, getObserveOption response = some age := by
  induction replies generalizing replies' i with
  | nil => cases h
  | cons r rs ih =>
    rw [responseLoop] at h
    cases hage : getObserveOption response with
    | some age => exact ⟨age, rfl⟩
    | none =>
      have hnext : (responseLoop response id token rs).map (fun (found, replies) => (found.map (· + 1), r :: replies)) =
          some (some i, replies') := by
        simp only [hage, Option.bind_none] at h
        split_ifs at h <;> exact h
      obtain ⟨⟨found, replies⟩, hloop, heq⟩ := Option.map_eq_some_iff.1 hnext
      obtain ⟨j, rfl, -⟩ : ∃ j, found = some j ∧ j + 1 = i := by simpa using congrArg Prod.fst heq
      exact hage ▸ ih hloop

/-- The record is one that a response with `id` and `token` answers. -/
def CoapReply.Matches (id : UInt16) (token : List UInt8) (r : CoapReply) : Prop :=
  token = [] ∧ r.id = id ∨ r.tkl = token.length ∧ r.token.take r.tkl = token

theorem CoapReply.Answered.matches_iff {age : ℤ} {r : CoapReply} (h : r.Answered age id token = true) :
    r.Matches id token ↔ (token ≠ [] → r.tkl = token.length) := by
  simp only [Answered, decide_eq_true_eq] at h
  obtain ⟨-, hid, htake, -⟩ := h
  constructor
  · rintro (⟨hempty, -⟩ | ⟨hlen, -⟩) hne
    · exact absurd hempty hne
    · exact hlen
  · intro hlen
    by_cases hempty : token = []
    · exact .inl ⟨hempty, hid hempty⟩
    · exact .inr ⟨hlen hempty, by rw [hlen hempty, htake hempty]⟩

/-- **The record that is selected** is answered exactly if the first one that is taken for it has a token of the
same length. -/
theorem coapResponseReceived_matches {rx : CoapRx} (hid : coapHeaderGetId rx = some id)
    (htoken : coapHeaderGetToken rx = some token) (replies : List CoapReply) :
    (∀ i replies', coapResponseReceived rx replies = some (some i, replies') → ∃ r, replies[i]? = some r ∧
      r.Matches id token) ↔
      ∀ age, getObserveOption rx = some age → ∀ r ∈ replies.find? (CoapReply.Answered age id token),
      token ≠ [] → r.tkl = token.length := by
  have hreceived : coapResponseReceived rx replies = responseLoop rx id token replies := by
    rw [coapResponseReceived, hid, htoken]
    rfl
  simp only [hreceived]
  constructor
  · intro hok age hage r hr
    obtain ⟨i, hi, hat⟩ := Option.bind_eq_some_iff.1 (find?_eq_bind_findIdx?_getElem?.symm.trans hr)
    obtain ⟨⟨_, replies'⟩, hloop, rfl⟩ := Option.map_eq_some_iff.1
      ((responseLoop_first hage replies).trans (congrArg some hi))
    obtain ⟨r', hat', hmatches⟩ := hok i replies' hloop
    obtain rfl := Option.some.inj (hat.symm.trans hat')
    exact (CoapReply.Answered.matches_iff (find?_some hr)).1 hmatches
  · intro hwhen i replies' hloop
    obtain ⟨age, hage⟩ := observed_of_selected hloop
    have hi : replies.findIdx? (CoapReply.Answered age id token) = some i := by
      have hfirst : (responseLoop rx id token replies).map Prod.fst = _ := responseLoop_first hage replies
      rw [hloop] at hfirst
      exact (Option.some.inj hfirst).symm
    obtain ⟨hlt, hanswered, -⟩ := findIdx?_eq_some_iff_getElem.1 hi
    have hr : replies.find? (CoapReply.Answered age id token) = some replies[i] := by
      rw [find?_eq_bind_findIdx?_getElem?, hi, Option.bind_some, getElem?_eq_getElem hlt]
    exact ⟨_, getElem?_eq_getElem hlt, (CoapReply.Answered.matches_iff hanswered).2 (hwhen age hage _ hr)⟩

theorem cycles_refs (init : ℤ) (n : Nat) (pending : CoapPending) :
    (cycles init n pending).2.refs = pending.refs + (cycles init n pending).1.count true := by
  induction n generalizing pending with
  | zero => rfl
  | succ n ih =>
    have hone : (coapPendingCycle init pending).2.refs = if (coapPendingCycle init pending).1 then
      pending.refs + 1 else pending.refs := rfl
    have hrest := ih (coapPendingCycle init pending).2
    rw [hone] at hrest
    rw [cycles, count_cons, hrest]
    simp only [beq_true]
    split <;> omega

/-- **Requests and replies**: of the requests that are waiting the one with the longest time left is returned,
which is one with the shortest exactly if all have the same; the record that is selected has the response's token,
with its length, or its message id if it has none, exactly if the first record whose token starts with the
response's has a token of that length; and there is one reference more for each transmission that is announced. -/
theorem coap_matching (pendings : List CoapPending) (init : ℤ) (n : Nat) (pending : CoapPending) :
    ((∃ q ∈ pendings, q.timeout ≠ 0) → ∃ p i, coapPendingNextToExpire pendings = some (p, i) ∧
      pendings[i]? = some p ∧ p.timeout ≠ 0 ∧ ((∀ q ∈ pendings, q.timeout ≠ 0 → p.timeout ≤ q.timeout) ↔
        ∀ q ∈ pendings, ∀ q' ∈ pendings, q.timeout ≠ 0 → q'.timeout ≠ 0 → q.timeout = q'.timeout)) ∧
    (∀ (rx : CoapRx) (id : UInt16) (token : List UInt8) (replies : List CoapReply),
      coapHeaderGetId rx = some id → coapHeaderGetToken rx = some token →
      ((∀ i replies', coapResponseReceived rx replies = some (some i, replies') → ∃ r, replies[i]? = some r ∧
        r.Matches id token) ↔ ∀ age, getObserveOption rx = some age →
          ∀ r ∈ replies.find? (CoapReply.Answered age id token), token ≠ [] → r.tkl = token.length)) ∧
    (∀ (m : CoapMessage) (c : List NetBuf) (rx : CoapRx), m.Accepted c rx →
      coapHeaderGetId rx = some m.id ∧ coapHeaderGetToken rx = some m.token) ∧
    (cycles init n pending).2.refs = pending.refs + (cycles init n pending).1.count true := by
  refine ⟨fun hsome => ?_, fun rx id token replies hid htoken => coapResponseReceived_matches hid htoken replies, ?_,
    cycles_refs init n pending⟩
  · obtain ⟨q, hq, hne⟩ := hsome
    have hspec := coapPendingNextToExpire_spec pendings
    obtain hnone | ⟨⟨p, i⟩, hp⟩ := (coapPendingNextToExpire pendings).eq_none_or_eq_some
    · rw [hnone] at hspec
      exact absurd (hspec q hq) hne
    · rw [hp] at hspec
      obtain ⟨hat, hp0, hmax⟩ := hspec
      refine ⟨p, i, hp, hat, hp0, ?_, ?_⟩
      · intro hmin x hx y hy hx0 hy0
        have hlongest : ∀ z ∈ pendings, z.timeout ≠ 0 → z.timeout = p.timeout :=
          fun z hz hz0 => Int.le_antisymm (hmax z hz hz0) (hmin z hz hz0)
        rw [hlongest x hx hx0, hlongest y hy hy0]
      · intro hall x hx hx0
        exact Int.le_of_eq (hall p (mem_of_getElem? hat) x hx hp0 hx0)
  · intro m c rx h
    obtain ⟨-, -, -, hid, htoken⟩ := coapHeader_spec rx.hdrLen rx.optLen h.readable.header h.valid.token h.before.1
    exact ⟨hid, htoken⟩

/-- A response with the token 5, in one buffer behind the headers. -/
def tokenFive : CoapRx := ⟨oneBuffer ⟨1, 2, [5], 0x45, 7, [], [9]⟩, 48, 5, 1⟩

def threeReplies : List CoapReply := [⟨0, [4, 0], 6, 1⟩, ⟨0, [5, 0], 7, 1⟩, ⟨0, [], 0, 0⟩]

/-- Two requests that have been sent at once, a response with the token of the second of three records, which is
selected, and a request that is sent five times. -/
theorem coap_matching_second :
    (∃ p i, coapPendingNextToExpire [⟨0, 1, 0⟩, ⟨2345, 2, 1⟩, ⟨2345, 3, 1⟩] = some (p, i) ∧ p.timeout ≠ 0) ∧
    (∃ r, coapResponseReceived tokenFive threeReplies = some (some 1, threeReplies) ∧ r.token = [5, 0] ∧
      CoapReply.Matches 7 [5] r) ∧
    (cycles 2345 6 ⟨0, 7, 1⟩).2.refs = 1 + (cycles 2345 6 ⟨0, 7, 1⟩).1.count true := by
  obtain ⟨hnext, hreply, -, hrefs⟩ := coap_matching [⟨0, 1, 0⟩, ⟨2345, 2, 1⟩, ⟨2345, 3, 1⟩] 2345 6 ⟨0, 7, 1⟩
  refine ⟨?_, ?_, hrefs⟩
  · obtain ⟨p, i, hp, -, hne, -⟩ := hnext (by decide)
    exact ⟨p, i, hp, hne⟩
  · have hreceived : coapResponseReceived tokenFive threeReplies = some (some 1, threeReplies) := by decide +kernel
    have hage : getObserveOption tokenFive = some (-2) := by decide +kernel
    obtain ⟨r, hr, hmatches⟩ := (hreply tokenFive 7 [5] threeReplies (by decide +kernel)
      (by decide +kernel)).2 (fun age h => by
      obtain rfl := Option.some.inj (hage.symm.trans h)
      decide) 1 _ hreceived
    cases hr
    exact ⟨_, hreceived, rfl, hmatches⟩

/-- **Where it goes wrong.** The request that expires in 9380 ms is returned before the one that expires in 2345
ms. And a response with the token 1 is given to the record with the token 1, 2. -/
theorem prefix_of_token_matches :
    (coapPendingNextToExpire [⟨2345, 1, 1⟩, ⟨9380, 2, 1⟩]).map Prod.snd = some 1 ∧
    (coapPacketParse (oneBuffer ⟨1, 2, [1], 0x45, 7, [], []⟩) 40 0 []).returns fun r =>
      coapResponseReceived r.1 [⟨0, [1, 2, 0, 0, 0, 0, 0, 0], 6, 2⟩] = some
      (some 0, [⟨0, [1, 2, 0, 0, 0, 0, 0, 0], 6, 2⟩]) := by
  decide +kernel

end Zephyr
