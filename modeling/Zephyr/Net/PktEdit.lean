import Zephyr.Kernel.Api
import Zephyr.Net.PktCopy
/-!
# Compacting, splitting and inserting (subsys/net/ip/net_pkt.c:1085-1143, :1546-1721)

A buffer that `net_buf_add` does not fit into is an assertion (`none`). All buffers have one capacity, and then
there is none.
-/
namespace Zephyr

open Chunks List Option

/-! ## Compacting -/

def compactFrom (b : NetBuf) : List NetBuf → Option (List NetBuf)
  | [] => some (if b.len = 0 then [] else [b])
  | next :: frags => do
    let copyLen := min next.len b.tailroom
    let b ← b.append (next.data.take copyLen)
    let next ← next.close 0 copyLen (next.len - copyLen)
    if b.tailroom ≠ 0 then compactFrom b frags else (compactFrom next frags).map (b :: ·)

def netPktCompact : List NetBuf → Option (List NetBuf)
  | [] => some []
  | b :: frags => compactFrom b frags

/-- None is empty, and all but the last are full. -/
structure Compacted (frags : List NetBuf) : Prop where
  nonempty : ∀ b ∈ frags, b.data ≠ []
  full : ∀ b ∈ frags.dropLast, b.tailroom = 0

section

variable {b : NetBuf} {frags : List NetBuf} {Q : Nat → Prop}

theorem compacted_cons (hne : b.data ≠ []) (hfull : b.tailroom = 0) (h : Compacted frags) : Compacted (b :: frags) := by
  constructor
  · exact forall_mem_cons.2 ⟨hne, h.nonempty⟩
  · cases frags with
    | nil => exact fun _ hx => (not_mem_nil hx).elim
    | cons b' frags => exact forall_mem_cons.2 ⟨hfull, h.full⟩

/-- **The loop of `net_pkt_compact`.** The induction is on the buffers behind `b`. Either the next one is emptied
into `b`, or `b` is full. -/
theorem compactFrom_spec (hQ : ∀ n, Q n → 1 ≤ n) (hb : Q b.room) (hroom : ∀ x ∈ frags, Q x.room) :
    ∃ frags', compactFrom b frags = some frags' ∧ bytes frags' = b.data ++ bytes frags ∧ Compacted frags' ∧
    ∀ x ∈ frags', Q x.room := by
  induction frags generalizing b with
  | nil =>
    refine ⟨if b.len = 0 then [] else [b], rfl, ?_, ?_, ?_⟩
    · split
      · next hempty => rw [length_eq_zero_iff.1 hempty]; rfl
      · rfl
    · split
      · exact ⟨fun _ hx => (not_mem_nil hx).elim, fun _ hx => (not_mem_nil hx).elim⟩
      · next hne =>
        refine ⟨fun x hx => ?_, fun _ hx => (not_mem_nil hx).elim⟩
        obtain rfl := mem_singleton.1 hx
        exact fun hempty => hne (length_eq_zero_iff.2 hempty)
    · split
      · exact fun _ hx => (not_mem_nil hx).elim
      · exact forall_mem_singleton.2 hb
  | cons next frags ih =>
    have hrooms : ∀ x ∈ frags, Q x.room := fun x hx => hroom x (mem_cons_of_mem _ hx)
    generalize hk : min next.len b.tailroom = k
    have htake : (next.data.take k).length = k := by rw [length_take, NetBuf.length_data]; omega
    obtain ⟨b', happend, hdata, hroom'⟩ := b.append_spec (show (next.data.take k).length ≤ b.tailroom by omega)
    obtain ⟨next', hclose, hdata', hroom''⟩ := next.close_spec (show 0 + k ≤ next.len by omega)
    rw [Nat.zero_add, take_zero, nil_append] at hdata'
    rw [Nat.sub_zero] at hclose
    by_cases htail : b'.tailroom = 0
    · obtain ⟨frags', hloop, hbytes, hcompact, hrooms'⟩ :=
        ih (b := next') (by rw [hroom'']; exact hroom next mem_cons_self) hrooms
      refine ⟨b' :: frags', by simp [compactFrom, hk, happend, hclose, htail, hloop], ?_,
        compacted_cons ?_ htail hcompact,
        forall_mem_cons.2 ⟨by rwa [hroom'], hrooms'⟩⟩
      · rw [bytes_cons, hbytes, hdata, hdata', bytes_cons, append_assoc, ← append_assoc (next.data.take k),
          take_append_drop]
      · have hlen : b'.room = b'.len + b'.tailroom := rfl
        have hpos := hQ _ hb
        exact length_pos_iff.1 (show 0 < b'.len by omega)
    · obtain ⟨frags', hloop, hbytes, hcompact, hrooms'⟩ := ih (b := b') (by rwa [hroom']) hrooms
      refine ⟨frags', by simp [compactFrom, hk, happend, hclose, htail, hloop], ?_, hcompact, hrooms'⟩
      have hall : k = next.len := by
        have hlen : b'.len = b.len + k := by rw [← NetBuf.length_data, hdata, length_append, htake, NetBuf.length_data]
        simp only [NetBuf.room] at hroom'
        omega
      rw [hbytes, hdata, bytes_cons, hall, ← NetBuf.length_data, take_length, append_assoc]

/-- **`net_pkt_compact` (net_pkt.c:1085)** -/
theorem netPktCompact_spec (hQ : ∀ n, Q n → 1 ≤ n) (hroom : ∀ x ∈ frags, Q x.room) :
    ∃ frags', netPktCompact frags = some frags' ∧ bytes frags' = bytes frags ∧ Compacted frags' ∧
    ∀ x ∈ frags', Q x.room := by
  cases frags with
  | nil =>
    exact ⟨[], rfl, rfl, ⟨fun _ hx => (not_mem_nil hx).elim, fun _ hx => (not_mem_nil hx).elim⟩,
      fun _ hx => (not_mem_nil hx).elim⟩
  | cons b frags => exact compactFrom_spec hQ (hroom b mem_cons_self) fun x hx => hroom x (mem_cons_of_mem _ hx)

end

/-! ## Splitting -/

structure SplitResult where
  ret : ℤ
  frags : List NetBuf
  rest : Option (List NetBuf)
  supply : List NetBuf
deriving DecidableEq

def netPktSplit (supply frags : List NetBuf) (offset : Nat) : Option SplitResult :=
  if frags = [] ∨ offset = 0 then some ⟨einval, frags, none, supply⟩
  else
    match walk NetBuf.data (fun o l => o < l) frags offset, supply with
    | (_, [], offset), supply => some ⟨if offset ≠ 0 then einval else 0, frags, some [], supply⟩
    | (_, _ :: _, _), [] => some ⟨enomem, frags, some [], []⟩
    | (passed, b :: frags, offset), rest :: supply => do
      let rest ← rest.append (b.data.drop offset)
      some ⟨0, passed ++ [b.shrink offset], some (rest :: frags), supply⟩

section

variable {supply frags : List NetBuf} {o cap : Nat}

/-- What a split at `o` leaves. -/
structure Splits (Q : Nat → Prop) (supply frags : List NetBuf) (o : Nat) (r : SplitResult) : Prop where
  left : ∀ b ∈ r.supply, b ∈ supply
  fails : r.ret = 0 ∨ r.ret = enomem ∧ r.supply = []
  front : r.ret = 0 → bytes r.frags = (bytes frags).take o
  back : r.ret = 0 → ∃ rest, r.rest = some rest ∧ bytes rest = (bytes frags).drop o ∧ (∀ b ∈ rest, Q b.room) ∧
    (o < (bytes frags).length → rest ≠ [])
  rooms : r.ret = 0 → ∀ b ∈ r.frags, Q b.room
  first : r.ret = 0 → (∀ b ∈ frags.head?, b.data ≠ []) → ∀ b ∈ r.frags.head?, b.data ≠ []

/-- **`net_pkt_split` (net_pkt.c:1675)** -/
theorem netPktSplit_spec {Q : Nat → Prop} (hnew : ∀ b ∈ supply, b.data = [] ∧ b.room = cap) (hcap : Q cap)
    (hQ : ∀ n, Q n → n ≤ cap) (hroom : ∀ b ∈ frags, Q b.room) (h0 : 0 < o) (ho : o ≤ (bytes frags).length) :
    ∃ r, netPktSplit supply frags o = some r ∧ Splits Q supply frags o r := by
  have hne : ¬ (frags = [] ∨ o = 0) := by
    rintro (rfl | rfl)
    · rw [bytes_nil, length_nil] at ho
      omega
    · exact Nat.lt_irrefl 0 h0
  obtain ⟨passed, back, p, hwalk, hc, hp, hhead⟩ := walk_offset frags o
  cases back with
  | nil =>
    rw [append_nil] at hc
    subst hc
    obtain rfl : p = 0 := by omega
    refine ⟨⟨0, frags, some [], supply⟩, by simp only [netPktSplit, if_neg hne, hwalk]; rfl, fun b hb => hb,
      .inl rfl, fun _ => ?_,
      fun _ => ⟨[], rfl, ?_, fun _ hb => (not_mem_nil hb).elim, fun hlt => by omega⟩, fun _ => hroom, fun _ h => h⟩
    · rw [← hp, Nat.add_zero, take_length]
    · rw [← hp, Nat.add_zero, drop_length]
      rfl
  | cons b back =>
    have hin := hhead b rfl
    simp only [hc, mem_append, mem_cons] at hroom
    cases supply with
    | nil =>
      refine ⟨⟨enomem, frags, some [], []⟩, by simp only [netPktSplit, if_neg hne, hwalk], fun b hb => hb,
        .inr ⟨rfl, rfl⟩, ?_, ?_, ?_, ?_⟩
      all_goals exact fun h => absurd (show enomem = 0 from h) (by decide)
    | cons rest supply =>
      have hb := hQ _ (hroom b (.inr (.inl rfl)))
      obtain ⟨hempty, hrest⟩ := hnew rest mem_cons_self
      have hlen : rest.len = 0 := length_eq_zero_iff.2 hempty
      have hfits : (b.data.drop p).length ≤ rest.tailroom := by
        rw [length_drop, NetBuf.length_data]
        simp only [NetBuf.room] at hb hrest
        omega
      obtain ⟨rest', happend, hdata, hroom'⟩ := rest.append_spec hfits
      refine ⟨⟨0, passed ++ [b.shrink p], some (rest' :: back), supply⟩, by simp [netPktSplit, hne, hwalk, happend],
        fun x hx => mem_cons_of_mem _ hx, .inl rfl, fun _ => ?_,
        fun _ => ⟨_, rfl, ?_, ?_, fun _ => cons_ne_nil _ _⟩, fun _ => ?_, fun _ hfirst => ?_⟩
      · rw [hc, bytes_append, bytes_append, ← hp, take_length_add_append, bytes_cons, bytes_cons, bytes_nil, append_nil,
          take_append_of_le_length (Nat.le_of_lt hin)]
        rfl
      · rw [hc, bytes_append, ← hp, drop_length_add_append, bytes_cons, bytes_cons, hdata, hempty, nil_append,
          drop_append_of_le_length (Nat.le_of_lt hin)]
      · exact forall_mem_cons.2 ⟨by rwa [hroom', hrest], fun x hx => hroom x (.inr (.inr hx))⟩
      · intro x hx
        obtain hx | hx := mem_append.1 hx
        · exact hroom x (.inl hx)
        · obtain rfl := mem_singleton.1 hx
          rw [NetBuf.room_shrink]
          exact hroom b (.inr (.inl rfl))
      · cases passed with
        | nil =>
          -- the cut is in the first buffer, behind its first byte
          intro x hx
          obtain rfl : b.shrink p = x := by simpa using hx
          have hlen : (b.data.take p).length = o := by
            rw [length_take, NetBuf.length_data, ← hp, bytes_nil, length_nil]
            omega
          exact length_pos_iff.1 (show 0 < (b.data.take p).length by omega)
        | cons y ys =>
          rw [hc] at hfirst
          exact hfirst

end

/-! ## Inserting -/

def adjustInsertOffset (frags : List NetBuf) (offset : Nat) : List NetBuf × List NetBuf × Nat :=
  match walk NetBuf.data (fun o l => o ≤ l) frags offset with
  | (passed, b :: frags, offset) => if offset = b.len then (passed ++ [b], frags, 0) else (passed, b :: frags, offset)
  | (passed, [], offset) => (passed, [], offset)

/-- What is inserted: the data, or zeros. -/
def insertBlock (len : Nat) : Option (List UInt8) → List UInt8
  | some data => data.take len
  | none => List.replicate len 0

/-- `frags` are the buffers behind `b`; the result is `b` with all that is linked behind it then. -/
def insertData (temp frags : List NetBuf) :
    List NetBuf → NetBuf → Nat → List UInt8 → Option (Bool × List NetBuf × List NetBuf)
  | supply, b, offset, data => do
    let count := min data.length b.tailroom
    let b ← (b.put offset (data.take count)).bind (·.add count)
    if data.length = count then some (true, b :: (temp ++ frags), supply)
    else
      match supply with
      | [] => some (false, b :: frags, [])
      | insert :: supply => (insertData temp frags supply insert 0 (data.drop count)).map fun r =>
          (r.1, b :: r.2.1, r.2.2)

def insertCompact (passed : List NetBuf) (r : Bool × List NetBuf × List NetBuf) :
    Option (Bool × List NetBuf × List NetBuf) :=
  if r.1 then (netPktCompact (passed ++ r.2.1)).map fun frags =>
    (true, frags, r.2.2) else some (false, passed ++ r.2.1, r.2.2)

def netPktInsert (supply frags : List NetBuf) (offset len : Nat) (data : Option (List UInt8)) :
    Option (Bool × List NetBuf × List NetBuf) :=
  match adjustInsertOffset frags offset, supply with
  | (_, [], _), supply => some (false, frags, supply)
  | (passed, b :: back, offset), supply =>
    if b.len - offset ≠ 0 then
      match supply with
      | [] => some (false, frags, [])
      | temp :: supply => do
        let temp ← temp.append (b.data.drop offset)
        (insertData [temp] back supply (b.shrink offset) offset (insertBlock len data)).bind (insertCompact passed)
    else (insertData [] back supply b offset (insertBlock len data)).bind (insertCompact passed)

section

variable {supply frags temp : List NetBuf} {b : NetBuf} {o p cap : Nat} {d : List UInt8}

/-- The buffers that are passed hold what is before `o`, and the one to insert in has data from there on, or it is
empty. -/
theorem adjustInsertOffset_spec (frags : List NetBuf) (o : Nat) :
    ∃ passed rest p, adjustInsertOffset frags o = (passed, rest, p) ∧
    frags = passed ++ rest ∧ (bytes passed).length + p = o ∧ ∀ b ∈ rest.head?, p ≤ b.len ∧
    (b.data ≠ [] → p < b.len) := by
  generalize hwalk : walk NetBuf.data (fun o l => decide (o ≤ l)) frags o = w
  obtain ⟨passed, rest, p⟩ := w
  obtain ⟨hc, hp, hhead⟩ := walk_spec (fun o l h => Nat.le_of_lt (by simpa using h)) hwalk
  change (bytes passed).length + p = o at hp
  cases rest with
  | nil => exact ⟨passed, [], p, by simp only [adjustInsertOffset, hwalk], hc, hp, fun _ hb => nomatch hb⟩
  | cons b rest =>
    have hle : p ≤ b.len := of_decide_eq_true (hhead b rfl)
    by_cases hend : p = b.len
    · refine ⟨passed ++ [b], rest, 0, by simp only [adjustInsertOffset, hwalk, if_pos hend], by simp [hc], ?_,
        fun _ _ => ⟨Nat.zero_le _, length_pos_iff.2⟩⟩
      simp [← hp, hend]
    · exact ⟨passed, b :: rest, p, by simp only [adjustInsertOffset, hwalk, if_neg hend], hc, hp, by rintro _ ⟨⟩; omega⟩

theorem put_take (k : Nat) :
    (b.put b.len (d.take (min d.length k))).bind (·.add (min d.length k)) = b.append (d.take (min d.length k)) := by
  rw [NetBuf.append, length_take, Nat.min_eq_left (Nat.min_le_left _ _)]

/-- **The loop of `insert_data`** appends to the buffer, as `net_buf_append_bytes` does. What was behind it follows
if all of the data is in. The induction is on the buffers that can be got. -/
theorem insertData_eq (hfresh : ∀ x ∈ supply, x.data = []) : insertData temp frags supply b b.len d =
    (netBufAppendBytes supply b d).map fun r =>
    (decide (r.1 = d.length), r.2.1 ++ ((if r.1 = d.length then temp else []) ++ frags), r.2.2) := by
  induction supply generalizing b d with
  | nil =>
    rw [insertData, netBufAppendBytes, put_take]
    simp only [bind_eq_bind]
    cases b.append (d.take (min d.length b.tailroom)) with
    | none => rfl
    | some b' =>
      by_cases hall : d.length = min d.length b.tailroom
      · simp [← hall]
      · simp [hall, Ne.symm hall]
  | cons x supply ih =>
    have hrec := ih (b := x) (d := d.drop (min d.length b.tailroom)) fun y hy => hfresh y (mem_cons_of_mem _ hy)
    rw [NetBuf.len, hfresh x mem_cons_self, length_nil] at hrec
    rw [insertData, netBufAppendBytes, put_take]
    simp only [bind_eq_bind, hrec]
    cases b.append (d.take (min d.length b.tailroom)) with
    | none => rfl
    | some b' =>
      by_cases hall : d.length = min d.length b.tailroom
      · simp [← hall]
      · have hrest : ∀ k, k = d.length - min d.length b.tailroom ↔ min d.length b.tailroom + k = d.length := by omega
        simp [hall, hrest, Function.comp_def]

theorem insertData_spec (hb : 1 ≤ b.room) (hfresh : ∀ x ∈ supply, x.data = []) (hnew : ∀ x ∈ supply, 1 ≤ x.room)
    (hroom : ∀ x ∈ temp ++ frags, 1 ≤ x.room) :
    ∃ ok back supply', insertData temp frags supply b b.len d = some (ok, back, supply') ∧
      (ok = true → bytes back = b.data ++ d ++ (bytes temp ++ bytes frags) ∧ ∀ x ∈ back, 1 ≤ x.room) := by
  obtain ⟨count, first, new, supply', hr, hres, -⟩ :=
    netBufAppendBytes_spec (Q := (1 ≤ ·)) d (fun x hx => ⟨hfresh x hx, hnew x hx⟩) hb
  refine ⟨_, _, _, by rw [insertData_eq hfresh, hr, map_some], fun h => ?_⟩
  obtain rfl : count = d.length := of_decide_eq_true h
  rw [if_pos rfl]
  refine ⟨?_, fun x hx => (mem_append.1 hx).elim (hres.rooms x) (hroom x)⟩
  rw [bytes_append, hres.bytes, take_length, bytes_append]

theorem insertCompact_spec {passed back : List NetBuf} {ok : Bool} (supply' : List NetBuf)
    (hpassed : ∀ x ∈ passed, 1 ≤ x.room) (hok : ok = true → bytes back = d ∧ ∀ x ∈ back, 1 ≤ x.room) :
    ∃ r, insertCompact passed (ok, back, supply') = some r ∧ (r.1 = true → bytes r.2.1 = bytes passed ++ d) := by
  cases ok with
  | false => exact ⟨_, rfl, fun h => absurd h (by simp)⟩
  | true =>
    obtain ⟨hbytes, hback⟩ := hok rfl
    obtain ⟨frags', hcompact, hsame, -⟩ := netPktCompact_spec (fun _ h => h) fun x (hx : x ∈ passed ++ back) =>
      (mem_append.1 hx).elim (hpassed x) (hback x)
    exact ⟨(true, frags', supply'), by simp [insertCompact, hcompact], fun _ => by rw [hsame, bytes_append, hbytes]⟩

/-- **`net_pkt_insert` (net_pkt.c:1640)** -/
theorem netPktInsert_spec (hcap : 1 ≤ cap) (hfresh : ∀ b ∈ supply, b.data = [])
    (hroom : ∀ b ∈ frags ++ supply, b.room = cap)
    (ho : o < (bytes frags).length) (len : Nat) (data : Option (List UInt8)) :
    ∃ r, netPktInsert supply frags o len data = some r ∧
      (r.1 = true → bytes r.2.1 = (bytes frags).take o ++ insertBlock len data ++ (bytes frags).drop o) := by
  obtain ⟨passed, _ | ⟨b, back⟩, p, hadjust, rfl, hp, hin⟩ := adjustInsertOffset_spec frags o
  · rw [append_nil] at ho
    omega
  have hle := (hin b rfl).1
  have hpos : ∀ x ∈ (passed ++ b :: back) ++ supply, 1 ≤ x.room := fun x hx => by rwa [hroom x hx]
  simp only [mem_append, mem_cons] at hpos hroom
  -- what is wanted, seen from `b`
  have hwant : (bytes (passed ++ b :: back)).take o ++ insertBlock len data ++ (bytes (passed ++ b :: back)).drop o =
      bytes passed ++ (b.data.take p ++ insertBlock len data ++ (b.data.drop p ++ bytes back)) := by
    rw [bytes_append, bytes_cons, ← hp, take_length_add_append, drop_length_add_append, take_append_of_le_length hle,
      drop_append_of_le_length hle]
    simp only [append_assoc]
  rw [hwant]
  have hpassed : ∀ x ∈ passed, 1 ≤ x.room := fun x hx => hpos x (.inl (.inl hx))
  have hback : ∀ x ∈ back, 1 ≤ x.room := fun x hx => hpos x (.inl (.inr (.inr hx)))
  have hb : 1 ≤ b.room := hpos b (.inl (.inr (.inl rfl)))
  by_cases hsplit : b.len - p = 0
  · obtain rfl : p = b.len := by omega
    obtain ⟨ok, back', supply', hdata, hok⟩ := insertData_spec (d := insertBlock len data) hb hfresh
      (fun x hx => hpos x (.inr hx)) (show ∀ x ∈ [] ++ back, 1 ≤ x.room from hback)
    obtain ⟨r, hr, hres⟩ := insertCompact_spec supply' hpassed hok
    refine ⟨r, by simp [netPktInsert, hadjust, hdata, hr], fun h => ?_⟩
    rw [hres h, bytes_nil, nil_append, ← NetBuf.length_data, take_length, drop_length, nil_append]
  · cases supply with
    | nil =>
      exact ⟨(false, passed ++ b :: back, []), by simp [netPktInsert, hadjust, hsplit], fun h => absurd h (by simp)⟩
    | cons temp supply =>
      have hempty : temp.data = [] := hfresh temp mem_cons_self
      have hlen : temp.len = 0 := length_eq_zero_iff.2 hempty
      have hfits : (b.data.drop p).length ≤ temp.tailroom := by
        have h1 := hroom b (.inl (.inr (.inl rfl)))
        have h2 := hroom temp (.inr mem_cons_self)
        rw [length_drop, NetBuf.length_data]
        simp only [NetBuf.room] at h1 h2
        omega
      obtain ⟨temp', happend, hdata', hroom'⟩ := temp.append_spec hfits
      have hshrink : (b.shrink p).len = p := by
        change (b.data.take p).length = p
        rw [length_take, NetBuf.length_data, Nat.min_eq_left hle]
      obtain ⟨ok, back', supply', hdata, hok⟩ := insertData_spec (d := insertBlock len data)
        (show 1 ≤ (b.shrink p).room by rwa [NetBuf.room_shrink]) (fun x hx => hfresh x (mem_cons_of_mem _ hx))
        (fun x hx => hpos x (.inr (mem_cons_of_mem _ hx)))
        (show ∀ x ∈ [temp'] ++ back, 1 ≤ x.room from
          forall_mem_cons.2 ⟨by rw [hroom']; exact hpos temp (.inr mem_cons_self), hback⟩)
      rw [hshrink] at hdata
      obtain ⟨r, hr, hres⟩ := insertCompact_spec supply' hpassed hok
      refine ⟨r, by simp [netPktInsert, hadjust, hsplit, happend, hdata, hr], fun h => ?_⟩
      rw [hres h, bytes_cons, bytes_nil, hdata', hempty, nil_append, append_nil]
      rfl

end

/-- **Insert, split and compact are operations on the content** (net_pkt.c:1085-1143, :1546-1721), for buffers of
one capacity. -/
theorem netPkt_edits (cap : Nat) (supply frags : List NetBuf) (hcap : 1 ≤ cap)
    (hroom : ∀ b ∈ frags ++ supply, b.room = cap) (hfresh : ∀ b ∈ supply, b.data = []) :
    (∀ o len data, o < (bytes frags).length → ∃ r, netPktInsert supply frags o len data = some r ∧
      (r.1 = true → bytes r.2.1 = (bytes frags).take o ++ insertBlock len data ++ (bytes frags).drop o)) ∧
    (∀ o, 0 < o → o ≤ (bytes frags).length → ∃ r, netPktSplit supply frags o = some r ∧
      (r.ret = 0 → bytes r.frags = (bytes frags).take o ∧ ∃ rest, r.rest = some rest ∧
        bytes rest = (bytes frags).drop o)) ∧
    ∃ frags', netPktCompact frags = some frags' ∧ bytes frags' = bytes frags ∧ Compacted frags' := by
  refine ⟨fun o len data ho => netPktInsert_spec hcap hfresh hroom ho len data, fun o h0 ho => ?_, ?_⟩
  · obtain ⟨r, hr, hsplit⟩ := netPktSplit_spec (Q := (· = cap))
      (fun b hb => ⟨hfresh b hb, hroom b (mem_append_right _ hb)⟩) rfl
      (fun _ h => Nat.le_of_eq h) (fun b hb => hroom b (mem_append_left _ hb)) h0 ho
    refine ⟨r, hr, fun h => ⟨hsplit.front h, ?_⟩⟩
    obtain ⟨rest, hrest, hbytes, -⟩ := hsplit.back h
    exact ⟨rest, hrest, hbytes⟩
  obtain ⟨frags', hcompact, hbytes, hfull, -⟩ := netPktCompact_spec (fun _ h => h) fun x hx =>
    show 1 ≤ x.room by rwa [hroom x (mem_append_left _ hx)]
  exact ⟨frags', hcompact, hbytes, hfull⟩

/-- Three bytes into the middle of a buffer of two, with two more at hand. -/
theorem netPkt_edits_intoMiddle :
    ∃ r, netPktInsert [⟨[], [0, 0]⟩, ⟨[], [0, 0]⟩] [⟨[1, 2], []⟩, ⟨[], [9, 9]⟩] 1 3 (some [7, 8, 9]) =
    some r ∧ r.1 = true ∧ bytes r.2.1 = [1, 7, 8, 9, 2] := by
  obtain ⟨r, hr, hok⟩ := (netPkt_edits 2 [⟨[], [0, 0]⟩, ⟨[], [0, 0]⟩] [⟨[1, 2], []⟩, ⟨[], [9, 9]⟩] (by decide)
    (by decide) (by decide)).1
    1 3 (some [7, 8, 9]) (by decide)
  have hret : (netPktInsert [⟨[], [0, 0]⟩, ⟨[], [0, 0]⟩] [⟨[1, 2], []⟩, ⟨[], [9, 9]⟩] 1 3
    (some [7, 8, 9])).map (·.1) = some true := by
    decide
  rw [hr] at hret
  have hone : r.1 = true := Option.some.inj hret
  exact ⟨r, hr, hone, hok hone⟩

end Zephyr
