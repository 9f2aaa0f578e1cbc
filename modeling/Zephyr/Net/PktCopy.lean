import Zephyr.Net.PktRead
/-!
# Copies of packets, and data put to their ends (subsys/net/ip/net_pkt.c:936-1038, :1151-1202, subsys/net/buf.c:724)

The allocation of the `struct net_pkt` itself is not modelled; that it fails looks to the caller as if there were
no buffer.
-/
namespace Zephyr

open List Option

/-- A buffer of the original with the bytes `data` left, and `frag` to fill. The result is what has been filled,
the buffer to go on with and the new `amount`. -/
def copyFrag : List NetBuf → NetBuf → List UInt8 → Nat → Option (Option (List NetBuf × NetBuf × Nat) × List NetBuf)
  | supply, frag, data, amount =>
    if amount = 0 then some (some ([], frag, 0), supply)
    else do
      let leftLen := frag.tailroom
      let copyLen := min amount data.length
      if leftLen ≤ copyLen then
        let frag ← frag.append (data.take leftLen)
        match supply with
        | [] => some (none, [])
        | new :: supply =>
          (copyFrag supply new (data.drop leftLen) (amount - leftLen)).map fun r =>
          (r.1.map fun x => (frag :: x.1, x.2), r.2)
      else
        let frag ← frag.append (data.take copyLen)
        some (some ([], frag, amount - copyLen), supply)

def copyLoop : List NetBuf → List NetBuf → NetBuf → Nat → Option (Option (List NetBuf) × List NetBuf)
  | [], supply, frag, _ => some (some [frag], supply)
  | orig :: origs, supply, frag, amount => do
    match ← copyFrag supply frag orig.data amount with
    | (none, supply) => some (none, supply)
    | (some (passed, frag, amount), supply) =>
      (copyLoop origs supply frag amount).map fun r => (r.1.map (passed ++ ·), r.2)

def netBufAppendBytes : List NetBuf → NetBuf → List UInt8 → Option (Nat × List NetBuf × List NetBuf)
  | supply, frag, value => do
    let count := min value.length frag.tailroom
    let frag ← frag.append (value.take count)
    if value.length = count then some (count, [frag], supply)
    else
      match supply with
      | [] => some (count, [frag], [])
      | new :: supply => (netBufAppendBytes supply new (value.drop count)).map fun r =>
          (count + r.1, frag :: r.2.1, r.2.2)

def netPktAppend (dataLen : Option Nat) (supply frags : List NetBuf) (data : List UInt8) :
    Option (Nat × List NetBuf × List NetBuf) :=
  if data = [] then some (0, frags, supply)
  else
    match frags.getLast?, supply with
    | none, [] => some (0, [], [])
    | none, frag :: supply => netBufAppendBytes supply frag (data.take (dataLen.getD data.length))
    | some last, supply =>
      (netBufAppendBytes supply last (data.take (dataLen.getD data.length))).map fun r =>
      (r.1, frags.dropLast ++ r.2.1, r.2.2)

/-! ## Copies -/

/-- All but the last are full. -/
def Packed (frags : List NetBuf) : Prop := ∀ b ∈ frags.dropLast, b.tailroom = 0

/-- The buffers come from the supply, and a failure leaves none of them. -/
structure Drawn {α : Type} (supply : List NetBuf) (r : Option α × List NetBuf) : Prop where
  left : ∀ b ∈ r.2, b ∈ supply
  none : r.1 = none → r.2 = []

section

variable {Q : Nat → Prop} {supply origs : List NetBuf} {frag : NetBuf} {data : List UInt8} {amount : Nat}

/-- Where the copy stands: what is filled holds what has been copied. -/
structure Copied (Q : Nat → Prop) (content : List UInt8) (passed : List NetBuf) (frag : NetBuf) : Prop where
  bytes : bytes passed ++ frag.data = content
  full : ∀ b ∈ passed, b.tailroom = 0
  rooms : ∀ b ∈ passed, Q b.room
  room : Q frag.room

theorem tailroom_append {b b' : NetBuf} {d : List UInt8} (hdata : b'.data = b.data ++ d) (hroom : b'.room = b.room) :
    b'.tailroom + d.length = b.tailroom := by
  have hlen : b'.len = b.len + d.length := by rw [← NetBuf.length_data, hdata, length_append, NetBuf.length_data]
  simp only [NetBuf.room] at hroom
  omega

/-- The result of a round. -/
def CopiedBy (Q : Nat → Prop) (supply : List NetBuf) (frag : NetBuf) (data : List UInt8) (amount : Nat)
    (r : Option (List NetBuf × NetBuf × Nat) × List NetBuf) : Prop :=
  Drawn supply r ∧ ∀ passed frag' amount', r.1 = some (passed, frag', amount') →
    amount' = amount - data.length ∧ Copied Q (frag.data ++ data.take amount) passed frag'

/-- What is to be copied of the original fits into the buffer at hand. -/
theorem copyFrag_fits (hfrag : Q frag.room) (hfits : amount = 0 ∨ min amount data.length < frag.tailroom) :
    ∃ r, copyFrag supply frag data amount = some r ∧ CopiedBy Q supply frag data amount r := by
  have hlast : ∃ frag', copyFrag supply frag data amount = some
    (some ([], frag', amount - min amount data.length), supply) ∧
      frag'.data = frag.data ++ data.take amount ∧ frag'.room = frag.room := by
    by_cases hzero : amount = 0
    · exact ⟨frag, by unfold copyFrag; simp [hzero], by rw [hzero, take_zero, append_nil], rfl⟩
    · have hlt := hfits.resolve_left hzero
      obtain ⟨frag', happend, hdata, hroom⟩ :=
        frag.append_spec (show (data.take (min amount data.length)).length ≤ frag.tailroom by
        rw [length_take]; omega)
      refine ⟨frag', ?_, by rw [hdata, ← take_eq_take_min], hroom⟩
      unfold copyFrag
      simp [hzero, Nat.not_le.2 hlt, happend]
  obtain ⟨frag', hcopy, hdata, hroom⟩ := hlast
  refine ⟨_, hcopy, ⟨fun b hb => hb, fun h => by cases h⟩, fun passed x amount' h => ?_⟩
  simp only [Option.some.injEq, Prod.mk.injEq] at h
  obtain ⟨rfl, rfl, rfl⟩ := h
  exact ⟨by omega, hdata, fun _ hb => (not_mem_nil hb).elim, fun _ hb => (not_mem_nil hb).elim, by rwa [hroom]⟩

/-- The induction is on the buffers that can be got: one is taken whenever the one at hand is full. -/
theorem copyFrag_spec (data : List UInt8) (amount : Nat) (hnew : ∀ b ∈ supply, b.data = [] ∧ Q b.room)
    (hfrag : Q frag.room) :
    ∃ r, copyFrag supply frag data amount = some r ∧ CopiedBy Q supply frag data amount r := by
  induction supply generalizing frag data amount with
  | nil =>
    by_cases hfits : amount = 0 ∨ min amount data.length < frag.tailroom
    · exact copyFrag_fits hfrag hfits
    · obtain ⟨hzero, hfull⟩ := not_or.1 hfits
      obtain ⟨full, happend, -⟩ := frag.append_spec
        (show (data.take frag.tailroom).length ≤ frag.tailroom by rw [length_take]; omega)
      refine ⟨(none, []), ?_, ⟨fun b hb => hb, fun _ => rfl⟩, fun _ _ _ h => by cases h⟩
      rw [copyFrag, if_neg hzero]
      simp only [if_pos (Nat.le_of_not_lt hfull), happend, bind_eq_bind, bind_some]
  | cons new supply ih =>
    by_cases hfits : amount = 0 ∨ min amount data.length < frag.tailroom
    · exact copyFrag_fits hfrag hfits
    · obtain ⟨hzero, hfull⟩ := not_or.1 hfits
      have htake : (data.take frag.tailroom).length = frag.tailroom := by rw [length_take]; omega
      obtain ⟨full, happend, hdata, hroom⟩ := frag.append_spec (Nat.le_of_eq htake)
      have hleft := tailroom_append hdata hroom
      have hempty : new.data = [] := (hnew new mem_cons_self).1
      obtain ⟨r, hr, hdrawn, hok⟩ := ih (data.drop frag.tailroom) (amount - frag.tailroom)
        (fun b hb => hnew b (mem_cons_of_mem _ hb)) (hnew new mem_cons_self).2
      refine ⟨(r.1.map fun x => (full :: x.1, x.2), r.2), ?_, ?_, ?_⟩
      · rw [copyFrag, if_neg hzero]
        simp only [if_pos (Nat.le_of_not_lt hfull), happend, hr, bind_eq_bind, bind_some, map_some]
      · exact ⟨fun b hb => mem_cons_of_mem _ (hdrawn.left b hb), fun h => hdrawn.none (map_eq_none_iff.1 h)⟩
      · intro passed frag' amount' h
        obtain ⟨⟨passed', frag'', amount''⟩, hx, heq⟩ := map_eq_some_iff.1 h
        simp only [Prod.mk.injEq] at heq
        obtain ⟨rfl, rfl, rfl⟩ := heq
        obtain ⟨hamount, hcopied⟩ := hok _ _ _ hx
        refine ⟨by rw [hamount, length_drop]; omega, ?_, ?_, ?_, hcopied.room⟩
        · have hsplit : data.take frag.tailroom ++ (data.drop frag.tailroom).take (amount - frag.tailroom) =
            data.take amount := by
            rw [← take_add, Nat.add_sub_cancel' (by omega)]
          rw [bytes_cons, append_assoc, hcopied.bytes, hdata, hempty, nil_append, append_assoc, hsplit]
        · exact forall_mem_cons.2 ⟨by omega, hcopied.full⟩
        · exact forall_mem_cons.2 ⟨by rwa [hroom], hcopied.rooms⟩

theorem packed_concat {passed : List NetBuf} (h : ∀ b ∈ passed, b.tailroom = 0) (hp : Packed origs) :
    Packed (passed ++ origs) := by
  intro b hb
  cases origs with
  | nil =>
    rw [append_nil] at hb
    exact h b (dropLast_subset _ hb)
  | cons x origs =>
    rw [dropLast_append_of_ne_nil (cons_ne_nil _ _)] at hb
    exact (mem_append.1 hb).elim (h b) (hp b)

/-- **The loop of `net_pkt_copy`.** The induction is on the buffers of the original. -/
theorem copyLoop_spec (origs : List NetBuf) (amount : Nat) (hnew : ∀ b ∈ supply, b.data = [] ∧ Q b.room)
    (hfrag : Q frag.room) :
    ∃ r, copyLoop origs supply frag amount = some r ∧ Drawn supply r ∧
      ∀ frags, r.1 = some frags → bytes frags = frag.data ++ (bytes origs).take amount ∧ Packed frags ∧
      frags ≠ [] ∧ ∀ b ∈ frags, Q b.room := by
  induction origs generalizing supply frag amount with
  | nil =>
    refine ⟨(some [frag], supply), rfl, ⟨fun b hb => hb, fun h => by cases h⟩, fun frags h => ?_⟩
    cases h
    exact ⟨by rw [bytes_nil, take_nil]; rfl, fun _ hb => (not_mem_nil hb).elim, cons_ne_nil _ _,
      forall_mem_singleton.2 hfrag⟩
  | cons orig origs ih =>
    obtain ⟨⟨r, supply'⟩, hr, hdrawn, hok⟩ := copyFrag_spec orig.data amount hnew hfrag
    cases r with
    | none =>
      exact ⟨(none, supply'), by simp [copyLoop, hr], ⟨hdrawn.left, fun _ => hdrawn.none rfl⟩, fun _ h => by cases h⟩
    | some x =>
      obtain ⟨passed, frag', amount'⟩ := x
      obtain ⟨rfl, hcopied⟩ := hok _ _ _ rfl
      have hdrawn' : ∀ b ∈ supply', b ∈ supply := hdrawn.left
      obtain ⟨r, hr', hdrawn', hok'⟩ := ih (amount - orig.data.length) (fun b hb => hnew b (hdrawn' b hb)) hcopied.room
      refine ⟨(r.1.map (passed ++ ·), r.2), by simp only [copyLoop, hr, hr', bind_eq_bind, bind_some, map_some],
        ?_, fun frags h => ?_⟩
      · exact ⟨fun b hb => hdrawn.left b (hdrawn'.left b hb), fun h => hdrawn'.none (map_eq_none_iff.1 h)⟩
      · obtain ⟨back, hback, rfl⟩ := map_eq_some_iff.1 h
        obtain ⟨hbytes, hpacked, hne, hrooms⟩ := hok' back hback
        refine ⟨?_, packed_concat hcopied.full hpacked, append_ne_nil_of_right_ne_nil _ hne, fun b hb => ?_⟩
        · rw [bytes_append, hbytes, ← append_assoc, hcopied.bytes, append_assoc, bytes_cons, take_append]
        · exact (mem_append.1 hb).elim (hcopied.rooms b) (hrooms b)

/-! ## Appending -/

variable {value : List UInt8} {frags : List NetBuf}

/-- What can still be appended. -/
def spaceLeft (frags supply : List NetBuf) : Nat :=
    frags.getLast?.elim 0 NetBuf.tailroom + (supply.map NetBuf.tailroom).sum

/-- The value is behind `content`, or as much of it as there is space for. -/
structure Appended (Q : Nat → Prop) (supply : List NetBuf) (space : Nat) (content value : List UInt8)
    (count : Nat) (frags supply' : List NetBuf) : Prop where
  left : ∀ b ∈ supply', b ∈ supply
  rooms : ∀ b ∈ frags, Q b.room
  le : count ≤ value.length
  bytes : bytes frags = content ++ value.take count
  short : count < value.length → supply' = [] ∧ spaceLeft frags supply' = 0
  space : spaceLeft frags supply' + count = space

/-- The buffers from `frag` on: it takes what it can, and every one that is added gets some of the rest. -/
def AppendsTo (Q : Nat → Prop) (supply : List NetBuf) (frag : NetBuf) (value : List UInt8) : Prop :=
  ∃ count first new supply', netBufAppendBytes supply frag value = some (count, first :: new, supply') ∧
    Appended Q supply (frag.tailroom + (supply.map NetBuf.tailroom).sum) frag.data value count (first :: new) supply' ∧
    first.data = frag.data ++ value.take frag.tailroom ∧ ((∀ b ∈ supply, 1 ≤ b.tailroom) → ∀ b ∈ new, b.data ≠ [])

theorem AppendsTo.last (hfrag : Q frag.room) (hlast : value.length ≤ frag.tailroom ∨ supply = []) :
    AppendsTo Q supply frag value := by
  generalize hcount : min value.length frag.tailroom = count
  obtain ⟨frag', happend, hdata, hroom⟩ := frag.append_spec (d := value.take count) (by rw [length_take]; omega)
  have hleft := tailroom_append hdata hroom
  rw [length_take] at hleft
  have hspace : spaceLeft [frag'] supply = frag'.tailroom + (supply.map NetBuf.tailroom).sum := rfl
  refine ⟨count, frag', [], supply, ?_, ⟨fun b hb => hb, forall_mem_singleton.2 (by rwa [hroom]), by omega,
    ?_, fun h => ?_, by omega⟩, ?_, ?_⟩
  · unfold netBufAppendBytes
    simp only [hcount, happend, bind_eq_bind, bind_some]
    obtain h | rfl := hlast
    · rw [if_pos (by omega)]
    · exact ite_self _
  · rw [bytes_cons, bytes_nil, append_nil, hdata]
  · obtain rfl : supply = [] := hlast.resolve_left (by omega)
    rw [map_nil, sum_nil] at hspace
    exact ⟨rfl, by omega⟩
  · rw [hdata, ← hcount, Nat.min_comm, ← take_eq_take_min]
  · exact fun _ _ hb => (not_mem_nil hb).elim

/-- **`net_buf_append_bytes` (buf.c:724).** The induction is on the buffers that can be got. -/
theorem netBufAppendBytes_spec (value : List UInt8) (hnew : ∀ b ∈ supply, b.data = [] ∧ Q b.room)
    (hfrag : Q frag.room) :
    AppendsTo Q supply frag value := by
  induction supply generalizing frag value with
  | nil => exact .last hfrag (.inr rfl)
  | cons b supply ih =>
    by_cases hle : value.length ≤ frag.tailroom
    · exact .last hfrag (.inl hle)
    · have htake : (value.take frag.tailroom).length = frag.tailroom := by rw [length_take]; omega
      obtain ⟨frag', happend, hdata, hroom⟩ := frag.append_spec (Nat.le_of_eq htake)
      have hempty : b.data = [] := (hnew b mem_cons_self).1
      have hlen : (value.drop frag.tailroom).length = value.length - frag.tailroom := length_drop
      obtain ⟨count, first, new, supply', hrec, hres, hfirst, hadded⟩ := ih (value.drop frag.tailroom)
        (fun x hx => hnew x (mem_cons_of_mem _ hx)) (hnew b mem_cons_self).2
      have hspace : spaceLeft (frag' :: first :: new) supply' = spaceLeft (first :: new) supply' := by simp [spaceLeft]
      have hle' := hres.le
      have hsum := hres.space
      refine ⟨frag.tailroom + count, frag', first :: new, supply', ?_, ⟨fun x hx => mem_cons_of_mem _ (hres.left x hx),
        forall_mem_cons.2 ⟨by rwa [hroom], hres.rooms⟩, by omega, ?_, fun h => ?_, ?_⟩, hdata, fun hpos => ?_⟩
      · have hcount : min value.length frag.tailroom = frag.tailroom := Nat.min_eq_right (by omega)
        have hmore : value.length ≠ frag.tailroom := by omega
        simp only [netBufAppendBytes, hcount, happend, bind_eq_bind, bind_some, if_neg hmore, hrec, map_some]
      · rw [bytes_cons, hres.bytes, hdata, hempty, nil_append, append_assoc, take_add]
      · rw [hspace]
        exact hres.short (by omega)
      · rw [map_cons, sum_cons]
        omega
      · refine forall_mem_cons.2 ⟨?_, hadded fun x hx => hpos x (mem_cons_of_mem _ hx)⟩
        have hb := hpos b mem_cons_self
        rw [hfirst, hempty, nil_append, ← length_pos_iff, length_take]
        omega

/-- **`net_pkt_append` (net_pkt.c:1151)** to a packet without a context. -/
theorem netPktAppend_spec (hnew : ∀ b ∈ supply, b.data = [] ∧ Q b.room) (hrooms : ∀ b ∈ frags, Q b.room)
    (hne : frags ≠ []) (hvalue : value ≠ []) :
    ∃ count first new supply', netPktAppend none supply frags value = some
    (count, frags.dropLast ++ first :: new, supply') ∧
      Appended Q supply (spaceLeft frags supply) (bytes frags) value count (frags.dropLast ++ first :: new) supply' ∧
      ((frags.getLast hne).data ≠ [] → first.data ≠ []) ∧
      ((∀ b ∈ supply, 1 ≤ b.tailroom) → ∀ b ∈ new, b.data ≠ []) := by
  have hlast : frags.getLast? = some (frags.getLast hne) := List.getLast?_eq_some_getLast hne
  have hsplit : frags.dropLast ++ [frags.getLast hne] = frags := dropLast_append_getLast hne
  obtain ⟨count, first, new, supply', hr, hres, hfirst, hadded⟩ :=
    netBufAppendBytes_spec value hnew (hrooms _ (getLast_mem hne))
  have hspace : spaceLeft (frags.dropLast ++ first :: new) supply' = spaceLeft (first :: new) supply' := by
    rw [spaceLeft, spaceLeft, List.getLast?_append_of_ne_nil _ (cons_ne_nil _ _)]
  refine ⟨count, first, new, supply', by simp [netPktAppend, hvalue, hlast, hr],
    ⟨hres.left, fun b hb => ?_, hres.le, ?_, fun h => ?_, ?_⟩, fun h => ?_, hadded⟩
  · exact (mem_append.1 hb).elim (fun hb => hrooms b (dropLast_subset _ hb)) (hres.rooms b)
  · rw [bytes_append, hres.bytes]
    conv_rhs => rw [← hsplit]
    rw [bytes_append, bytes_cons, bytes_nil, append_nil, append_assoc]
  · rw [hspace]
    exact hres.short h
  · rw [hspace, hres.space, spaceLeft, hlast]
    rfl
  · rw [hfirst]
    exact append_ne_nil_of_left_ne_nil h _

/-! ## Appending with enough space -/

/-- A packet to which data is put at the end. -/
structure Growing (frags supply : List NetBuf) : Prop where
  ne : frags ≠ []
  gaps : NoGaps frags
  fresh : ∀ b ∈ supply, b.data = []
  space : ∀ b ∈ supply, 1 ≤ b.tailroom

/-- **`net_pkt_append` (net_pkt.c:1151)** to a packet without a context, with enough space. -/
theorem netPktAppend_fits (value : List UInt8) (hgrow : Growing frags supply)
    (hfits : value.length ≤ spaceLeft frags supply) :
    ∃ frags' supply', netPktAppend none supply frags value = some (value.length, frags', supply') ∧
    bytes frags' = bytes frags ++ value ∧
      Growing frags' supply' ∧ spaceLeft frags' supply' + value.length = spaceLeft frags supply := by
  by_cases hvalue : value = []
  · exact ⟨frags, supply, by simp [netPktAppend, hvalue], by simp [hvalue], hgrow, by simp [hvalue]⟩
  · obtain ⟨count, first, new, supply', happend, hres, hfirst, hadded⟩ :=
      netPktAppend_spec (Q := fun _ => True) (fun b hb => ⟨hgrow.fresh b hb, trivial⟩)
      (fun _ _ => trivial) hgrow.ne hvalue
    have hspace := hres.space
    have hbytes := hres.bytes
    obtain rfl : count = value.length := by
      refine Nat.le_antisymm hres.le (Nat.le_of_not_lt fun hlt => ?_)
      have := (hres.short hlt).2
      omega
    rw [take_length] at hbytes
    refine ⟨_, supply', happend, hbytes, ⟨by simp, ?_, fun b hb => hgrow.fresh b (hres.left b hb),
      fun b hb => hgrow.space b (hres.left b hb)⟩, hspace⟩
    have hne := hadded hgrow.space
    have hgaps := hgrow.gaps
    rw [NoGaps, ← dropLast_append_getLast hgrow.ne, pairwise_append] at hgaps
    refine pairwise_append.2 ⟨hgaps.1, pairwise_cons.2 ⟨fun b hb h => absurd h (hne b hb), ?_⟩, fun a ha b hb h => ?_⟩
    · exact (pairwise_of_forall_mem_list fun a _ b hb h => absurd h (hne b hb))
    · rcases mem_cons.1 hb with rfl | hb
      · exact hgaps.2.2 a ha _ (mem_singleton.2 rfl) (Classical.not_not.1 fun hlast => hfirst hlast h)
      · exact absurd h (hne b hb)

end

end Zephyr
