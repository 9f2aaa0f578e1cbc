import Zephyr.Kernel.MsgQ
/-!
# A message queue loses nothing and keeps the order

Four facts move together. `KMsgq.Holds q ms`: the ring stores the messages `ms`, one a slot. `MsgqBooks`: what
the gets were given and then `ms` is what the puts brought. `Parked`: a get waits only while `ms` is empty
and a put only while it is full. With one slot or more no queue is both, so that the thread which is
unpended is of the kind that the code takes it for.
-/
namespace Zephyr

open Ring RingBuffer StableQueue Function List Nat

variable {N : Nat} {β : Type}

/-! ## The ring -/

namespace KMsgq

variable {q : KMsgq β} {ms : List (List β)} {m : List β}

/-- The messages from `read_ptr` on. -/
def messages (q : KMsgq β) : List (List β) :=
  (List.range q.usedMsgs).map fun k => slice q.buffer ((q.readPtr + k * q.msgSize) % q.bufferEnd) q.msgSize

structure Holds (q : KMsgq β) (ms : List (List β)) : Prop where
  used : q.usedMsgs = ms.length
  le : ms.length ≤ q.maxMsgs
  ring : ∃ r, r < q.maxMsgs ∧ q.readPtr = r * q.msgSize ∧ q.writePtr = (r + ms.length) % q.maxMsgs * q.msgSize ∧
    contents (slots q.buffer q.msgSize) q.maxMsgs r ms.length = ms

@[simp] theorem storeMsg_maxMsgs : (q.storeMsg m).maxMsgs = q.maxMsgs := rfl

@[simp] theorem fetchMsg_msgSize : q.fetchMsg.2.msgSize = q.msgSize := rfl

@[simp] theorem fetchMsg_maxMsgs : q.fetchMsg.2.maxMsgs = q.maxMsgs := rfl

theorem Holds.storeMsg (h : q.Holds ms) (hroom : ms.length < q.maxMsgs) (hm : m.length = q.msgSize) :
    (q.storeMsg m).Holds (ms ++ [m]) := by
  obtain ⟨r, hr, hread, hwrite, hcont⟩ := h.ring
  have hpos : (r + ms.length) % q.maxMsgs < q.maxMsgs := mod_lt _ (by omega)
  refine ⟨?_, ?_, r, hr, hread, ?_, ?_⟩
  · simp [KMsgq.storeMsg, h.used]
  · rwa [length_append]
  · change step (q.maxMsgs * q.msgSize) q.writePtr q.msgSize = _
    rw [hwrite, step_slots, step_eq_mod hpos, mod_add_mod, length_append, ← add_assoc]
    rfl
  · change contents (slots (write q.buffer q.writePtr m) q.msgSize) q.maxMsgs r (ms ++ [m]).length = _
    rw [hwrite, slots_write hm, length_append, contents_write hroom rfl hpos, hcont]

theorem Holds.fetchMsg (h : q.Holds (m :: ms)) : q.fetchMsg.1 = m ∧ q.fetchMsg.2.Holds ms := by
  obtain ⟨r, hr, hread, hwrite, hcont⟩ := h.ring
  have hle := h.le
  rw [length_cons] at hle hwrite hcont
  constructor
  · have hhead := congrArg List.head? hcont
    simpa [KMsgq.fetchMsg, hread, contents, slots, range_succ_eq_map, mod_eq_of_lt hr] using hhead
  refine ⟨?_, le_of_succ_le hle, (r + 1) % q.maxMsgs, mod_lt _ (zero_lt_of_lt hr), ?_, ?_, ?_⟩
  · simp [KMsgq.fetchMsg, h.used]
  · change step (q.maxMsgs * q.msgSize) q.readPtr q.msgSize = _
    rw [hread, step_slots, step_eq_mod hr]
    rfl
  · change q.writePtr = _
    rw [hwrite, fetchMsg_maxMsgs, fetchMsg_msgSize, Nat.mod_add_mod, Nat.add_right_comm, Nat.add_assoc]
  · have hdrop : contents (slots q.buffer q.msgSize) q.maxMsgs ((r + 1) % q.maxMsgs) (ms.length + 1 - 1) =
      (m :: ms).drop 1 := by
      rw [contents_drop, hcont]
    exact hdrop

theorem Holds.purge (h : q.Holds ms) : { q with usedMsgs := 0, readPtr := q.writePtr }.Holds ([] : List (List β)) := by
  obtain ⟨r, hr, -, hwrite, -⟩ := h.ring
  have hpos : (r + ms.length) % q.maxMsgs < q.maxMsgs := mod_lt _ (by omega)
  exact ⟨rfl, zero_le _, _, hpos, hwrite, by simp [hwrite], rfl⟩

theorem Holds.messages_eq (h : q.Holds ms) : q.messages = ms := by
  obtain ⟨r, -, hread, -, hcont⟩ := h.ring
  conv_rhs => rw [← hcont]
  unfold messages contents
  rw [h.used]
  refine map_congr_left fun k _ => ?_
  rw [hread, bufferEnd, ← add_mul, mul_mod_mul_right]
  rfl

theorem Holds.writePtr_eq (h : q.Holds ms) : q.writePtr = (q.readPtr + q.usedMsgs * q.msgSize) % q.bufferEnd := by
  obtain ⟨r, -, hread, hwrite, -⟩ := h.ring
  rw [hwrite, hread, h.used, bufferEnd, ← add_mul, mul_mod_mul_right]

end KMsgq

/-! ## The books -/

variable {s s' : MsgqState N β} {ms : List (List β)} {m : List β} {act : List Nat} {c w n : Nat} {f : MsgqCall N β}

/-- The messages `ms` are in the queue; the calls `act` are being dealt with. -/
structure MsgqBooks (n : Nat) (s : MsgqState N β) (ms : List (List β)) (act : List Nat) : Prop where
  unfinished : ∀ c, c ∈ act ++ s.waitQ ↔ s.calls c ≠ none ∧ s.returned c = none
  nodup : (act ++ s.waitQ).Nodup
  call : ∀ c, ∀ f ∈ s.calls c, f.data.length = n ∧ (s.returned c = none → s.data c = f.data)
  entered : ∀ c ∈ s.entered, s.isReq .put c
  got : ∀ c ∈ s.got, s.isReq .get c
  success : ∀ c, s.returned c = some 0 ↔ c ∈ s.entered ∨ c ∈ s.got ∨ c ∈ s.earlier
  fresh : ∀ c, s.calls c = none → s.returned c = none
  fifo : s.got.map s.data ++ ms = s.entered.map s.message

theorem isReq_iff {r : MsgqReq} : s.isReq r c ↔ ∃ f ∈ s.calls c, f.req = r := by
  unfold MsgqState.isReq
  cases s.calls c <;> simp

namespace MsgqBooks

section

variable (h : MsgqBooks n s ms act)

include h

theorem withQ (q : KMsgq β) : MsgqBooks n { s with q := q } ms act := { h with }

theorem not_settled (hc : c ∈ act ++ s.waitQ) : c ∉ s.entered ∧ c ∉ s.got ∧ c ∉ s.earlier := by
  have hret := ((h.unfinished c).1 hc).2
  have hno : ¬ (c ∈ s.entered ∨ c ∈ s.got ∨ c ∈ s.earlier) := by
    rw [← h.success, hret]
    simp
  simpa [not_or] using hno

theorem message_eq (hc : c ∈ act ++ s.waitQ) : s.data c = s.message c ∧ (s.message c).length = n := by
  obtain ⟨hcall, hret⟩ := (h.unfinished c).1 hc
  obtain ⟨f, hf⟩ := Option.ne_none_iff_exists'.1 hcall
  have hdata := h.call c f hf
  simp only [MsgqState.message, hf, Option.elim_some]
  exact ⟨hdata.2 hret, hdata.1⟩

/-- The first one that waits is unpended. -/
theorem unpend {waitQ : List Nat} (hw : s.waitQ = w :: waitQ) :
    MsgqBooks n { s with waitQ := waitQ } ms (act ++ [w]) := by
  have hmem : act ++ s.waitQ = act ++ [w] ++ waitQ := by simp [hw]
  exact { h with unfinished := hmem ▸ h.unfinished, nodup := hmem ▸ h.nodup }

end

/-- A call has its return value; how the books are brought up to date is the caller's. -/
theorem settle (h : MsgqBooks n s ms (c :: act)) {r : ℤ} {ms' : List (List β)} (hcalls : s'.calls = s.calls)
    (hret : s'.returned = update s.returned c (some r)) (hwait : s'.waitQ = s.waitQ)
    (hdata : ∀ d, d ≠ c → s'.data d = s.data d) (hentered : ∀ d ∈ s'.entered, s.isReq .put d)
    (hgot : ∀ d ∈ s'.got, s.isReq .get d)
    (hsuccess : ∀ d, update s.returned c (some r) d = some 0 ↔ d ∈ s'.entered ∨ d ∈ s'.got ∨ d ∈ s'.earlier)
    (hfifo : s'.got.map s'.data ++ ms' = s'.entered.map s.message) : MsgqBooks n s' ms' act := by
  have hnd := h.nodup
  rw [cons_append, nodup_cons] at hnd
  have hcc := (h.unfinished c).1 (by simp)
  have hne : ∀ d, s'.returned d = none → d ≠ c ∧ s.returned d = none := by
    intro d hd
    rw [hret] at hd
    by_cases hdc : d = c
    · simp [hdc] at hd
    · exact ⟨hdc, by rwa [update_of_ne hdc] at hd⟩
  refine ⟨fun d => ?_, hwait ▸ hnd.2, fun d f hf => ?_, ?_, ?_, ?_, fun d hd => ?_, ?_⟩
  · rw [hwait, hcalls, hret]
    by_cases hdc : d = c
    · subst hdc
      simpa using hnd.1
    · rw [update_of_ne hdc, ← h.unfinished d]
      simp [hdc]
  · rw [hcalls] at hf
    refine ⟨(h.call d f hf).1, fun hd => ?_⟩
    rw [hdata d (hne d hd).1, (h.call d f hf).2 (hne d hd).2]
  · simpa only [MsgqState.isReq, hcalls] using hentered
  · simpa only [MsgqState.isReq, hcalls] using hgot
  · simpa only [hret] using hsuccess
  · rw [hcalls] at hd
    have hdc : d ≠ c := fun hdc => hcc.1 (hdc ▸ hd)
    rw [hret, update_of_ne hdc]
    exact h.fresh d hd
  · have hmessage : s'.message = s.message := by
      funext d
      rw [MsgqState.message, hcalls, MsgqState.message]
    rwa [hmessage]

/-- A call fails. -/
theorem refuse (h : MsgqBooks n s ms (c :: act)) {r : ℤ} (hr : r ≠ 0) : MsgqBooks n (s.ret c r) ms act := by
  refine h.settle rfl rfl rfl (fun _ _ => rfl) h.entered h.got (fun d => ?_) h.fifo
  by_cases hdc : d = c
  · subst hdc
    simpa [MsgqState.ret, hr] using h.not_settled (by simp)
  · rw [update_of_ne hdc]
    exact h.success d

/-- The message of a put comes in. -/
theorem enter (h : MsgqBooks n s ms (c :: act)) (hput : s.isReq .put c) :
    MsgqBooks n (MsgqState.ret { s with entered := s.entered ++ [c] } c 0) (ms ++ [s.message c]) act := by
  refine h.settle rfl rfl rfl (fun _ _ => rfl) ?_ h.got (fun d => ?_) ?_
  · intro d hd
    rcases mem_append.1 hd with hd | hd
    · exact h.entered d hd
    · rwa [mem_singleton.1 hd]
  · by_cases hdc : d = c
    · simp [hdc, MsgqState.ret]
    · rw [update_of_ne hdc]
      simpa [MsgqState.ret, hdc] using h.success d
  · change s.got.map s.data ++ (ms ++ [s.message c]) = (s.entered ++ [c]).map s.message
    rw [← append_assoc, h.fifo, map_append]
    rfl

/-- A get is given the first message. -/
theorem take (h : MsgqBooks n s (m :: ms) (c :: act)) (hget : s.isReq .get c) :
    MsgqBooks n (MsgqState.ret { s with data := update s.data c m, got := s.got ++ [c] } c 0) ms act := by
  have hc := (h.not_settled (c := c) (by simp)).2.1
  refine h.settle rfl rfl rfl (fun d hd => update_of_ne hd _ _) h.entered ?_ (fun d => ?_) ?_
  · intro d hd
    rcases mem_append.1 hd with hd | hd
    · exact h.got d hd
    · rwa [mem_singleton.1 hd]
  · by_cases hdc : d = c
    · simp [hdc, MsgqState.ret]
    · rw [update_of_ne hdc]
      simpa [MsgqState.ret, hdc] using h.success d
  · change (s.got ++ [c]).map (update s.data c m) ++ ms = s.entered.map s.message
    rw [map_append, map_congr_left fun d hd => update_of_ne (ne_of_mem_of_not_mem hd hc) _ _, ← h.fifo]
    simp

/-- A call waits. -/
theorem pend (h : MsgqBooks n s ms [c]) : MsgqBooks n (s.pend c) ms [] :=
  { h with
    unfinished := fun d => by simpa [MsgqState.pend] using h.unfinished d
    nodup := nodup_enq (nodup_cons.1 h.nodup).2 (nodup_cons.1 h.nodup).1 }

/-- A call is made. -/
theorem register (h : MsgqBooks n s ms []) (hc : s.calls c = none) (hf : f.data.length = n) :
    MsgqBooks n (s.withCall c f) ms [c] := by
  have hret := h.fresh c hc
  have hwait : c ∉ s.waitQ := fun hw => ((h.unfinished c).1 hw).1 hc
  have hno : c ∉ s.entered ∧ c ∉ s.got := by
    constructor
    · intro hm
      obtain ⟨g, hg, -⟩ := isReq_iff.1 (h.entered c hm)
      simp [hc] at hg
    · intro hm
      obtain ⟨g, hg, -⟩ := isReq_iff.1 (h.got c hm)
      simp [hc] at hg
  unfold MsgqState.withCall
  refine ⟨fun d => ?_, nodup_cons.2 ⟨hwait, h.nodup⟩, fun d g hg => ?_, fun d hd => ?_, fun d hd => ?_,
    h.success, fun d hd => ?_, ?_⟩
  · by_cases hdc : d = c
    · simp [hdc, hret]
    · simpa [hdc] using h.unfinished d
  · by_cases hdc : d = c
    · subst hdc
      obtain rfl : f = g := by simpa using hg
      simpa using hf
    · simp only [update_of_ne hdc] at hg ⊢
      exact h.call d g hg
  · simpa only [MsgqState.isReq, update_of_ne (ne_of_mem_of_not_mem hd hno.1)] using h.entered d hd
  · simpa only [MsgqState.isReq, update_of_ne (ne_of_mem_of_not_mem hd hno.2)] using h.got d hd
  · by_cases hdc : d = c
    · simp [hdc] at hd
    · exact h.fresh d (by simpa [hdc] using hd)
  · have hdata : s.got.map (update s.data c f.data) = s.got.map s.data :=
      map_congr_left fun d hd => update_of_ne (ne_of_mem_of_not_mem hd hno.2) _ _
    have hmessage : s.entered.map (s.withCall c f).message = s.entered.map s.message := by
      refine map_congr_left fun d hd => ?_
      simp only [MsgqState.withCall, MsgqState.message, update_of_ne (ne_of_mem_of_not_mem hd hno.1)]
    exact hdata ▸ hmessage ▸ h.fifo

/-- Everyone who is being dealt with is sent back. -/
theorem wakeAll (h : MsgqBooks n s ms act) : MsgqBooks n { s with returned := Zephyr.wakeAll s.returned act } ms [] := by
  induction act generalizing s with
  | nil => exact h
  | cons c act ih => exact ih (h.refuse (by decide : enomsg ≠ 0))

/-- The messages that are in the queue go, and the books start again. -/
theorem restart (h : MsgqBooks n s ms act) :
    MsgqBooks n { s with entered := [], got := [], earlier := s.entered ++ s.got ++ s.earlier } [] act :=
  { h with
    entered := by simp
    got := by simp
    success := fun c => by simpa [or_assoc] using h.success c
    fifo := rfl }

end MsgqBooks

/-! ## One operation -/

/-- Who waits, with `ms` in the queue. -/
structure Parked (s : MsgqState N β) (ms : List (List β)) : Prop where
  getters : ∀ c ∈ s.waitQ, s.isReq .get c → ms = []
  putters : ∀ c ∈ s.waitQ, s.isReq .put c → ms.length = s.q.maxMsgs

structure MsgqInv (s : MsgqState N β) (ms : List (List β)) : Prop where
  books : MsgqBooks s.q.msgSize s ms []
  holds : s.q.Holds ms
  parked : Parked s ms

theorem parked_of_empty (h : s.waitQ = []) : Parked s ms := ⟨by simp [h], by simp [h]⟩

theorem MsgqBooks.kind (h : MsgqBooks n s ms act) (hc : c ∈ s.waitQ) : s.isReq .get c ∨ s.isReq .put c := by
  obtain ⟨f, hf⟩ := Option.ne_none_iff_exists'.1 ((h.unfinished c).1 (mem_append_right _ hc)).1
  cases hr : f.req with
  | get => exact .inl (isReq_iff.2 ⟨f, hf, hr⟩)
  | put => exact .inr (isReq_iff.2 ⟨f, hf, hr⟩)

theorem Parked.pend (h : Parked s ms) (hget : s.isReq .get c → ms = [])
    (hput : s.isReq .put c → ms.length = s.q.maxMsgs) :
    Parked (s.pend c) ms := by
  constructor
  · intro d hd hreq
    rcases mem_enq.1 hd with rfl | hd
    · exact hget hreq
    · exact h.getters d hd hreq
  · intro d hd hreq
    rcases mem_enq.1 hd with rfl | hd
    · exact hput hreq
    · exact h.putters d hd hreq

section step

variable {timeout : Timeout} (hb : MsgqBooks s.q.msgSize s ms [c]) (hh : s.q.Holds ms) (hp : Parked s ms)
include hb hh hp

theorem kMsgqPut_inv (hput : s.isReq .put c) (hget : ¬ s.isReq .get c) : ∃ ms', MsgqInv (kMsgqPut s c timeout) ms' := by
  have hmsg := hb.message_eq (c := c) (by simp)
  unfold kMsgqPut
  split
  · rename_i hroom
    rw [hh.used] at hroom
    split
    · rename_i w waitQ hw
      -- the one who waits is a reader, since the ring is not full
      have hgetter : s.isReq .get w := by
        refine (hb.kind (by simp [hw])).resolve_right fun hreq => ?_
        exact hroom.ne (hp.putters w (by simp [hw]) hreq)
      obtain rfl := hp.getters w (by simp [hw]) hgetter
      have hwc : w ≠ c := by
        rintro rfl
        exact hget hgetter
      have hbooks := ((hb.unpend hw).enter hput).take hgetter
      refine ⟨[], ?_, hh, ?_, ?_⟩
      · rw [update_comm hwc, hmsg.1]
        exact hbooks
      · exact fun d hd hreq => hp.getters d (by simp [hw, hd]) hreq
      · exact fun d hd hreq => hp.putters d (by simp [hw, hd]) hreq
    · rename_i hw
      refine ⟨ms ++ [s.message c], (hb.enter hput).withQ _, ?_, parked_of_empty hw⟩
      rw [hmsg.1]
      exact hh.storeMsg hroom hmsg.2
  · rename_i hfull
    have hlen : ms.length = s.q.maxMsgs := by
      have := hh.used
      have := hh.le
      omega
    split
    · exact ⟨ms, hb.refuse (by decide), hh, hp.getters, hp.putters⟩
    · exact ⟨ms, hb.pend, hh, hp.pend (fun hreq => absurd hreq hget) fun _ => hlen⟩

theorem kMsgqGet_inv (hget : s.isReq .get c) (hput : ¬ s.isReq .put c) : ∃ ms', MsgqInv (kMsgqGet s c timeout) ms' := by
  unfold kMsgqGet
  split
  · rename_i hused
    cases ms with
    | nil => simp [hh.used] at hused
    | cons m ms =>
      obtain ⟨hm, hh'⟩ := hh.fetchMsg
      have hbooks := (hb.take hget).withQ s.q.fetchMsg.2
      simp only [hm]
      split
      · rename_i w waitQ hw
        have hmem : w ∈ s.waitQ := by
          change s.waitQ = _ at hw
          simp [hw]
        have hputter : s.isReq .put w := (hb.kind hmem).resolve_left fun hreq => by simpa using hp.getters w hmem hreq
        have hlen := hp.putters w hmem hputter
        have hwc : w ≠ c := by
          rintro rfl
          exact hput hputter
        have hmsg := hb.message_eq (mem_append_right [c] hmem)
        refine ⟨ms ++ [s.message w], ((hbooks.unpend hw).enter hputter).withQ _, ?_, ?_, ?_⟩
        · change (s.q.fetchMsg.2.storeMsg (update s.data c m w)).Holds _
          rw [update_of_ne hwc, hmsg.1]
          exact hh'.storeMsg (lt_of_succ_le hlen.le) hmsg.2
        · intro d hd hreq
          have hmem' : d ∈ s.waitQ := by
            change s.waitQ = _ at hw
            exact hw ▸ mem_cons_of_mem _ hd
          simpa using hp.getters d hmem' hreq
        · intro d hd hreq
          simpa [MsgqState.ret] using hlen
      · rename_i hw
        exact ⟨ms, hbooks, hh', parked_of_empty hw⟩
  · rename_i hempty
    have hnil : ms = [] := eq_nil_of_length_eq_zero (by rw [← hh.used]; omega)
    split
    · exact ⟨ms, hb.refuse (by decide), hh, hp.getters, hp.putters⟩
    · exact ⟨ms, hb.pend, hh, hp.pend (fun _ => hnil) fun hreq => absurd hreq hput⟩

end step

theorem MsgqInv.purge (h : MsgqInv s ms) : MsgqInv (kMsgqPurge s) [] := by
  have hall : MsgqBooks s.q.msgSize { s with waitQ := [] } ms s.waitQ := by
    have hmem : ([] : List Nat) ++ s.waitQ = s.waitQ ++ [] := (append_nil _).symm
    exact { h.books with unfinished := hmem ▸ h.books.unfinished, nodup := hmem ▸ h.books.nodup }
  exact ⟨hall.wakeAll.restart.withQ _, h.holds.purge, parked_of_empty rfl⟩

theorem MsgqInv.timesOut (h : MsgqInv s ms) {i : Fin N} (hi : (msgqTimed N β).armed s i = true) :
    MsgqInv (s.timesOut i) ms ∧ ∀ k, k ≠ i → (msgqTimed N β).armed s k = true →
    (msgqTimed N β).armed (s.timesOut i) k = true := by
  obtain ⟨c, hc, hci⟩ : ∃ c ∈ s.waitQ, s.isTimed i c = true := List.any_eq_true.1 hi
  obtain ⟨c, hfind⟩ := Option.isSome_iff_exists.1 (List.find?_isSome.2 ⟨c, hc, hci⟩)
  have hc := List.mem_of_find?_eq_some hfind
  have hci : s.isTimed i c = true := List.find?_some hfind
  rw [MsgqState.timesOut, hfind]
  refine ⟨?_, fun k hk harmed => ?_⟩
  swap
  · -- another thread waits with another call
    obtain ⟨d, hd, hdk⟩ : ∃ d ∈ s.waitQ, s.isTimed k d = true := List.any_eq_true.1 harmed
    refine List.any_eq_true.2 ⟨d, (List.mem_erase_of_ne ?_).2 hd, hdk⟩
    rintro rfl
    cases hcall : s.calls d with
    | none => simp [MsgqState.isTimed, hcall] at hci
    | some f =>
      simp only [MsgqState.isTimed, hcall, Option.any_some, Bool.and_eq_true, decide_eq_true_eq] at hci hdk
      exact hk (hdk.1.symm.trans hci.1)
  have hout : MsgqBooks s.q.msgSize { s with waitQ := s.waitQ.erase c } ms [c] := by
    have hperm := perm_cons_erase hc
    exact { h.books with
      unfinished := fun d => by rw [← h.books.unfinished d]; exact hperm.symm.mem_iff
      nodup := hperm.nodup_iff.1 h.books.nodup }
  refine ⟨hout.refuse (by decide), h.holds, ?_, ?_⟩
  · exact fun d hd => h.parked.getters d (mem_of_mem_erase hd)
  · exact fun d hd => h.parked.putters d (mem_of_mem_erase hd)

theorem MsgqInv.call (h : MsgqInv s ms) (hc : s.calls c = none) (hlen : f.data.length = s.q.msgSize) :
    ∃ s' ms', MsgqOp.exec s (.call c f) = some s' ∧ MsgqInv s' ms' := by
  have hb : MsgqBooks (s.withCall c f).q.msgSize (s.withCall c f) ms [c] := h.books.register hc hlen
  have hreq : ∀ r d, d ∈ s.waitQ → (s.withCall c f).isReq r d = s.isReq r d := by
    intro r d hd
    have hne : d ≠ c := by
      rintro rfl
      exact ((h.books.unfinished d).1 hd).1 hc
    simp only [MsgqState.withCall, MsgqState.isReq, update_of_ne hne]
  have hp : Parked (s.withCall c f) ms := by
    constructor
    · exact fun d hd hr => h.parked.getters d hd (hreq _ d hd ▸ hr)
    · exact fun d hd hr => h.parked.putters d hd (hreq _ d hd ▸ hr)
  have hself : ∀ r, (s.withCall c f).isReq r c ↔ f.req = r := by simp [MsgqState.withCall, MsgqState.isReq]
  simp only [MsgqOp.exec]
  cases hf : f.req with
  | put =>
    obtain ⟨ms', h'⟩ := kMsgqPut_inv hb h.holds hp ((hself _).2 hf) (by simp [hself, hf])
    exact ⟨_, ms', rfl, h'⟩
  | get =>
    obtain ⟨ms', h'⟩ := kMsgqGet_inv hb h.holds hp ((hself _).2 hf) (by simp [hself, hf])
    exact ⟨_, ms', rfl, h'⟩

theorem MsgqInv.exec {op : MsgqOp N β} (h : MsgqInv s ms) (hlegal : op.Legal s) :
    ∃ s' ms', op.exec s = some s' ∧ MsgqInv s' ms' := by
  cases op with
  | call c f => exact h.call hlegal.1 hlegal.2
  | purge => exact ⟨_, [], rfl, h.purge⟩

theorem initMsgq_inv (buffer : Nat → β) (msgSize : Nat) {maxMsgs : Nat} (hmax : 1 ≤ maxMsgs) :
    MsgqInv (initMsgq N buffer msgSize maxMsgs) [] where
  books := by constructor <;> simp [initMsgq]
  holds := ⟨rfl, zero_le _, 0, hmax, by simp [initMsgq, kMsgqInit], by simp [initMsgq, kMsgqInit], rfl⟩
  parked := parked_of_empty rfl

/-! ## Whole runs -/

/-- **A lossless bounded FIFO.** -/
structure MsgqOk (s : MsgqState N β) : Prop where
  bounded : s.q.usedMsgs ≤ s.q.maxMsgs
  /-- `read_ptr` is at the beginning of a slot -/
  readPtr : ∃ r < s.q.maxMsgs, s.q.readPtr = r * s.q.msgSize
  writePtr : s.q.writePtr = (s.q.readPtr + s.q.usedMsgs * s.q.msgSize) % s.q.bufferEnd
  getters : ∀ c ∈ s.waitQ, s.isReq .get c → s.q.usedMsgs = 0
  putters : ∀ c ∈ s.waitQ, s.isReq .put c → s.q.usedMsgs = s.q.maxMsgs
  unmixed : (∀ c ∈ s.waitQ, s.isReq .get c) ∨ ∀ c ∈ s.waitQ, s.isReq .put c
  /-- a call waits until it has its return value -/
  waits : ∀ c, c ∈ s.waitQ ↔ s.calls c ≠ none ∧ s.returned c = none
  entered : ∀ c ∈ s.entered, s.isReq .put c
  got : ∀ c ∈ s.got, s.isReq .get c
  success : ∀ c, s.returned c = some 0 ↔ c ∈ s.entered ∨ c ∈ s.got ∨ c ∈ s.earlier
  fifo : s.got.map s.data ++ s.q.messages = s.entered.map s.message

theorem MsgqInv.ok (h : MsgqInv s ms) : MsgqOk s := by
  have hused := h.holds.used
  obtain ⟨r, hr, hread, -⟩ := h.holds.ring
  refine ⟨hused ▸ h.holds.le, ⟨r, hr, hread⟩, h.holds.writePtr_eq, ?_, ?_, ?_, h.books.unfinished,
    h.books.entered, h.books.got, h.books.success, ?_⟩
  · intro c hc hreq
    rw [hused, h.parked.getters c hc hreq]
    rfl
  · intro c hc hreq
    rw [hused, h.parked.putters c hc hreq]
  · by_cases hempty : ms = []
    · -- an empty queue is not full, as it has a slot
      refine .inl fun c hc => (h.books.kind hc).resolve_right fun hreq => ?_
      have hlen := h.parked.putters c hc hreq
      rw [hempty, length_nil] at hlen
      omega
    · exact .inr fun c hc => (h.books.kind hc).resolve_left fun hreq => hempty (h.parked.getters c hc hreq)
  · rw [h.holds.messages_eq]
    exact h.books.fifo

theorem msgqTimed_keeps : (msgqTimed N β).Keeps (fun s => ∃ ms, MsgqInv s ms) fun _ s op => op.Legal s where
  call _ s op h hop := by
    obtain ⟨ms, h⟩ := h
    obtain ⟨s', ms', hs', h'⟩ := h.exec hop
    exact ⟨s', hs', ms', h'⟩
  handle s i h hi := by
    obtain ⟨ms, h⟩ := h
    obtain ⟨h', harmed⟩ := h.timesOut hi
    exact ⟨_, rfl, ⟨ms, h'⟩, harmed⟩

/-- **Message queues are lossless.** For all sizes, and all calls and purges in any order, from threads and
interrupts, next to a clock whose pointers stay valid. -/
theorem msgq_lossless (N : Nat) (buffer : Nat → β) (msgSize maxMsgs : Nat) (hmax : 1 ≤ maxMsgs)
    (h : Fin N → Handler) (timer : Fin N → Bool)
    (hthread : ∀ i, timer i = false → (h i).rearms = false) (links : Links (Cell N))
    (ops : List (TimedOp N (MsgqOp N β))) (hall : Runs.Along ((msgqTimed N β).step h timer)
      (fun s op => Timed.Legal timer (fun _ s op => op.Legal s) (fun _ => True) s op ∧ (msgqTimed N β).Safe h s op)
      ⟨initMsgq N buffer msgSize maxMsgs, bootClock links⟩ ops) :
    ∃ s, Runs.run ((msgqTimed N β).step h timer) ⟨initMsgq N buffer msgSize maxMsgs, bootClock links⟩ ops =
    some s ∧ MsgqOk s.obj := by
  have hinit : TimedInv (msgqTimed N β) timer (fun s => ∃ ms, MsgqInv s ms)
    ⟨initMsgq N buffer msgSize maxMsgs, bootClock links⟩ :=
    ⟨bootClock_inv links, ⟨[], initMsgq_inv buffer msgSize hmax⟩, nofun⟩
  obtain ⟨s, hs, hinv⟩ := Runs.run_total (fun s op hs hop => hs.step msgqTimed_keeps hthread hop.1 hop.2) hinit hall
  obtain ⟨ms, hms⟩ := hinv.obj
  exact ⟨s, hs, hms.ok⟩

/-- One slot: the second put waits for the first get, the third get for the third put, and the fourth get times
out. Before the announcement has ended, an interrupt puts a message, which is purged. -/
def turnsOps : List (TimedOp 8 (MsgqOp 8 Nat)) :=
  [.call (.call 0 ⟨.put, 0, [1, 2], 5, .noWait, 0⟩), .call (.call 1 ⟨.put, 1, [3, 4], 5, .forever, 0⟩),
    .call (.call 2 ⟨.get, 2, [0, 0], 6, .noWait, 0⟩),
    .call (.call 3 ⟨.get, 3, [0, 0], 6, .noWait, 0⟩), .call (.call 4 ⟨.get, 4, [0, 0], 6, .ticks, 9⟩),
    .call (.call 5 ⟨.put, 5, [5, 6], 5, .forever, 0⟩),
    .call (.call 6 ⟨.get, 6, [0, 0], 6, .ticks, 3⟩), .announce 4, .tick, .tick,
    .call (.call 7 ⟨.put, 7, [7, 8], 5, .noWait, 0⟩), .tick, .tick, .call .purge]

theorem msgq_lossless_turns :
    ∃ s, Runs.run ((msgqTimed 8 Nat).step (fun _ => .thread) fun _ => false) ⟨initMsgq 8 (fun _ => 0) 2 1,
      bootClock ⟨id, id⟩⟩ turnsOps = some s ∧
      s.obj.returned 6 = some eagain ∧ s.obj.earlier.length = 7 ∧ MsgqOk s.obj := by
  refine Runs.exists_end (P := fun s => s.obj.returned 6 = some eagain ∧ s.obj.earlier.length = 7)
    (by decide +kernel) ?_
  rintro s hrun ⟨hret, hearlier⟩
  exact ⟨hret, hearlier, Runs.at_end (R := fun s => MsgqOk s.obj)
    (msgq_lossless 8 (fun _ => 0) 2 1 (by decide) (fun _ => .thread) (fun _ => false) (fun _ _ => rfl) ⟨id, id⟩ turnsOps
    (by decide +kernel)) hrun⟩

/-- Thread 0 waits for a message for one tick, the tick is announced, and the walk over the expired timeouts has
come to it. -/
def readerExpires : List (TimedOp 2 (MsgqOp 2 Nat)) :=
    [.call (.call 0 ⟨.get, 0, [0], 5, .ticks, 1⟩), .announce 1, .tick]

/-- Then an interrupt puts a message. -/
def latePut : TimedOp 2 (MsgqOp 2 Nat) := .call (.call 1 ⟨.put, 1, [7], 5, .noWait, 0⟩)

/-- **A message for a reader whose timeout has expired** (msg_q.c:113-126, timeout_q.h:119-131).
`_unpend_first_thread` aborts the timeout, which is the only one of the local list: what is behind it is the head
of that list, and `_abort_timeout` takes this for a timeout and adds to its difference. -/
theorem late_put_corrupts :
    Runs.Along ((msgqTimed 2 Nat).step (fun _ => .thread) fun _ => false)
    (Timed.Legal (fun _ => false) (fun _ s op => op.Legal s) fun _ => True)
        ⟨initMsgq 2 (fun _ => 0) 1 1, bootClock ⟨id, id⟩⟩ (readerExpires ++ [latePut]) ∧
      ∃ s, Runs.run ((msgqTimed 2 Nat).step (fun _ => .thread) fun _ => false) ⟨initMsgq 2 (fun _ => 0) 1 1,
        bootClock ⟨id, id⟩⟩ readerExpires = some s ∧
        s.obj.waitQ = [0] ∧ s.clock.pc = .walk 0 ∧ s.clock.st.links.next (.node 0) = .expired ∧
        (msgqTimed 2 Nat).step (fun _ => .thread) (fun _ => false) s latePut = none := by
  refine ⟨by decide +kernel, Runs.exists_end (P := fun s => s.obj.waitQ = [0] ∧ s.clock.pc = .walk 0 ∧
    s.clock.st.links.next (.node 0) = .expired ∧
    ((msgqTimed 2 Nat).step (fun _ => .thread) (fun _ => false) s latePut).isNone) (by decide +kernel) ?_⟩
  rintro s - ⟨hwait, hpc, hnext, hnone⟩
  exact ⟨hwait, hpc, hnext, Option.isNone_iff_eq_none.1 hnone⟩

end Zephyr
