import Zephyr.Kernel.Api
import Zephyr.Net.Buf
/-!
# Cutting a range out of a packet (subsys/net/ip/net_pkt.c:1842-1934)

`net_pkt_pull` walks to the buffer the range begins in, cuts that one, drops the buffers that are in the range as a
whole and moves the rest of the last one to its front. How much there is to cut in the first buffer is kept in an
`u8_t` (net_pkt.c:1847, :1907), while the length of a buffer is an `u16_t`: `long_pull_shifts`.
-/
namespace Zephyr

open Chunks List

def pullLoop : List NetBuf → Nat → Nat → Option (List NetBuf × Nat)
  | frags, _, 0 => some (frags, 0)
  | [], _, len => some ([], len)
  | b :: frags, 0, len =>
    if b.len < len then pullLoop frags 0 (len - b.len)
    else do
      let b ← b.close 0 len (b.len - len)
      some (if b.len = 0 then frags else b :: frags, 0)
  | b :: frags, offset, len =>
    let avail := (b.len - offset) % 256
    if avail < len then do
      let (frags, len) ← pullLoop frags 0 (len - avail)
      some (b.shrink offset :: frags, len)
    else do
      let b ← b.close offset len (avail - len)
      some (b :: frags, 0)

def netPktPull (frags : List NetBuf) (offset len : Nat) : Option (List NetBuf × ℤ) :=
  if len = 0 then some (frags, einval)
  else
    match walk NetBuf.data (fun o l => o < l) frags offset with
    | (_, [], _) => some (frags, einval)
    | (passed, frag, offset) => do
      let (frag, len) ← pullLoop frag offset len
      some (passed ++ frag, if len ≠ 0 then einval else 0)

section

variable {frags : List NetBuf} {offset n : Nat}

/-! ## The loop -/

/-- **The loop**, from the start of a buffer on, or from inside of one that has fewer than 256 bytes from there.
The induction is on the buffers. -/
theorem pullLoop_spec (hin : ∀ b ∈ frags.head?, offset = 0 ∨ offset < b.len ∧ b.len < offset + 256)
    (h : offset + n ≤ (bytes frags).length) :
    ∃ frags', pullLoop frags offset n = some (frags', 0) ∧ bytes frags' = (bytes frags).take offset ++
    (bytes frags).drop (offset + n) := by
  induction frags generalizing offset n with
  | nil =>
    obtain ⟨rfl, rfl⟩ : offset = 0 ∧ n = 0 := by simpa using h
    exact ⟨[], rfl, rfl⟩
  | cons b frags ih =>
    replace hin := hin b rfl
    obtain _ | n := n
    · exact ⟨b :: frags, by simp [pullLoop], by rw [Nat.add_zero, take_append_drop]⟩
    rw [bytes_cons] at h ⊢
    rw [length_append, NetBuf.length_data] at h
    rw [take_append_of_le_length (by rw [NetBuf.length_data]; omega)]
    by_cases hlong : b.len - offset < n + 1
    · obtain ⟨frags', hloop, hbytes⟩ := ih (fun _ _ => .inl rfl) (show 0 + (n + 1 - (b.len - offset)) ≤ _ by omega)
      have hback : (b.data ++ bytes frags).drop (offset + (n + 1)) = bytes frags' := by
        rw [hbytes, drop_append, drop_eq_nil_of_le (by rw [NetBuf.length_data]; omega), NetBuf.length_data]
        congr 2
        omega
      rw [hback]
      cases offset with
      | zero => exact ⟨frags', by simpa [pullLoop, show b.len < n + 1 from hlong] using hloop, rfl⟩
      | succ offset =>
        have havail : (b.len - (offset + 1)) % 256 = b.len - (offset + 1) := Nat.mod_eq_of_lt (by omega)
        exact ⟨b.shrink (offset + 1) :: frags', by simp [pullLoop, havail, hlong, hloop], rfl⟩
    · obtain ⟨b', hclose, hdata, -⟩ := NetBuf.close_spec (show offset + (n + 1) ≤ b.len by omega)
      rw [drop_append_of_le_length (by rw [NetBuf.length_data]; omega), ← append_assoc, ← hdata]
      cases offset with
      | zero =>
        refine ⟨if b'.len = 0 then frags else b' :: frags, ?_, ?_⟩
        · rw [Nat.sub_zero] at hlong hclose
          simp [pullLoop, hlong, hclose]
        · split
          · next hempty => rw [length_eq_zero_iff.1 hempty, nil_append]
          · rfl
      | succ offset =>
        have havail : (b.len - (offset + 1)) % 256 = b.len - (offset + 1) := Nat.mod_eq_of_lt (by omega)
        exact ⟨b' :: frags, by simp [pullLoop, havail, hlong, hclose], rfl⟩

/-- Without a failure as much is cut as is asked for. -/
theorem pullLoop_le {frags' : List NetBuf} (h : pullLoop frags 0 n = some (frags', 0)) : n ≤ (bytes frags).length := by
  induction frags generalizing n with
  | nil =>
    obtain _ | n := n
    · exact Nat.zero_le _
    · cases h
  | cons b frags ih =>
    obtain _ | n := n
    · exact Nat.zero_le _
    rw [bytes_cons, length_append, NetBuf.length_data]
    by_cases hlong : b.len < n + 1
    · have := ih (n := n + 1 - b.len) (by simpa [pullLoop, hlong] using h)
      omega
    · omega

theorem pullLoop_inside {b : NetBuf} (hoffset : offset ≠ 0) (hn : 1 ≤ n) : pullLoop (b :: frags) offset n =
    if (b.len - offset) % 256 < n then
      (pullLoop frags 0 (n - (b.len - offset) % 256)).map fun r => (b.shrink offset :: r.1, r.2)
    else (b.close offset n ((b.len - offset) % 256 - n)).map fun b => (b :: frags, 0) := by
  obtain ⟨offset, rfl⟩ := Nat.exists_eq_succ_of_ne_zero hoffset
  obtain ⟨n, rfl⟩ := Nat.exists_eq_add_of_le' hn
  simp only [pullLoop, Nat.succ_eq_add_one, Option.bind_eq_bind, Option.map_eq_bind, Function.comp_def]

/-- What `avail` does if the first buffer has 256 bytes or more from `offset` on: the bytes behind those that it
counts stay where they are. -/
theorem pullLoop_long {b : NetBuf} (hoffset : offset ≠ 0) (hlong : offset + 256 ≤ b.len) (hn : 1 ≤ n) :
    (∃ frags', pullLoop (b :: frags) offset n = some (frags', 0) ∧
      bytes frags' = (bytes (b :: frags)).take offset ++ (bytes (b :: frags)).drop (offset + n)) ↔
    n ≤ (b.len - offset) % 256 ∧ (b.data.drop (offset + (b.len - offset) % 256 - n)).take
    (b.len - offset - (b.len - offset) % 256) = b.data.drop (offset + (b.len - offset) % 256) := by
  have hless : (b.len - offset) % 256 < 256 := Nat.mod_lt _ (by decide)
  rw [pullLoop_inside hoffset hn]
  generalize (b.len - offset) % 256 = avail at *
  by_cases hshort : avail < n
  · rw [if_pos hshort]
    refine iff_of_false ?_ fun h => by omega
    rintro ⟨frags', hcut, hbytes⟩
    obtain ⟨⟨rest, len⟩, hrest, heq⟩ := Option.map_eq_some_iff.1 hcut
    obtain ⟨rfl, rfl⟩ : b.shrink offset :: rest = frags' ∧ len = 0 := by simpa using heq
    obtain ⟨rest', hrest', hcut⟩ := @pullLoop_spec frags 0 (n - avail) (fun _ _ => .inl rfl)
      (by rw [Nat.zero_add]; exact pullLoop_le hrest)
    obtain rfl : rest = rest' := (Prod.mk.inj (Option.some.inj (hrest.symm.trans hrest'))).1
    -- more is gone than the range: the bytes of the first buffer that are not counted
    have hlength := congrArg length hbytes
    simp only [bytes_cons, hcut, NetBuf.shrink, length_append, length_take, length_drop, NetBuf.length_data] at hlength
    have := pullLoop_le hrest
    omega
  · rw [if_neg hshort]
    have hn' : n ≤ avail := Nat.le_of_not_lt hshort
    obtain ⟨b', hclose, -, hdata⟩ := NetBuf.close_data (show offset + n + (avail - n) ≤ b.len by omega)
    have hkept : b.len - n - offset - (avail - n) = b.len - offset - avail := by omega
    have hmoved : offset + n + (avail - n) = offset + avail := by omega
    rw [hkept, ← Nat.add_sub_assoc hn'] at hdata
    have hsplit := take_append_drop (avail - n) (b.data.drop (offset + n))
    rw [drop_drop, hmoved] at hsplit
    have hwant : (bytes (b :: frags)).take offset ++ (bytes (b :: frags)).drop (offset + n) =
        b.data.take offset ++ (b.data.drop (offset + n)).take (avail - n) ++
        (b.data.drop (offset + avail) ++ bytes frags) := by
      rw [bytes_cons, take_append_of_le_length (by rw [NetBuf.length_data]; omega),
        drop_append_of_le_length (by rw [NetBuf.length_data]; omega), append_assoc,
        ← append_assoc (take (avail - n) _), hsplit]
    rw [hclose, hwant, and_iff_right hn', Option.map_some]
    simp only [Option.some.injEq, Prod.mk.injEq, and_true, exists_eq_left', bytes_cons, hdata, append_assoc,
      append_cancel_left_eq, append_cancel_right_eq]

end

/-! ## `net_pkt_pull` -/

/-- The range begins at the start of a buffer, or in a buffer that has fewer than 256 bytes from there on; or the
bytes that `memmove` leaves where they are happen to be those that belong there. -/
def pullFits (frags : List NetBuf) (offset n : Nat) : Bool :=
  match walk NetBuf.data (fun o l => o < l) frags offset with
  | (_, b :: _, p) =>
    let avail := (b.len - p) % 256
    p = 0 || b.len < p + 256 ||
      n ≤ avail && (b.data.drop (p + avail - n)).take (b.len - p - avail) = b.data.drop (p + avail)
  | (_, [], _) => true

/-- The range lies in the buffers behind those passed. -/
theorem netPktPull_behind {passed rest : List NetBuf} {b : NetBuf} {offset n p : Nat} (hn : 1 ≤ n)
    (hwalk : walk NetBuf.data (fun o l => o < l) (passed ++ b :: rest) offset = (passed, b :: rest, p))
    (hp : (bytes passed).length + p = offset) :
    (∃ frags', netPktPull (passed ++ b :: rest) offset n = some (frags', 0) ∧ bytes frags' =
        (bytes (passed ++ b :: rest)).take offset ++ (bytes (passed ++ b :: rest)).drop (offset + n)) ↔
      ∃ cut, pullLoop (b :: rest) p n = some (cut, 0) ∧
        bytes cut = (bytes (b :: rest)).take p ++ (bytes (b :: rest)).drop (p + n) := by
  have hn0 : n ≠ 0 := by omega
  have hpull : netPktPull (passed ++ b :: rest) offset n =
      (pullLoop (b :: rest) p n).map fun r => (passed ++ r.1, if r.2 ≠ 0 then einval else 0) := by
    simp only [netPktPull, if_neg hn0, hwalk, Option.bind_eq_bind, Option.map_eq_bind, Function.comp_def]
  rw [bytes_append, ← hp, take_length_add_append, Nat.add_assoc, drop_length_add_append, append_assoc, hp, hpull]
  constructor
  · rintro ⟨frags', h, hbytes⟩
    obtain ⟨⟨cut, left⟩, hcut, heq⟩ := Option.map_eq_some_iff.1 h
    obtain ⟨rfl, hleft⟩ := Prod.mk.inj heq
    obtain rfl : left = 0 := by
      by_contra hne
      rw [if_pos hne] at hleft
      cases hleft
    exact ⟨cut, hcut, append_cancel_left (by rwa [bytes_append] at hbytes)⟩
  · rintro ⟨cut, hcut, hbytes⟩
    exact ⟨passed ++ cut, by rw [hcut]; rfl, by rw [bytes_append, hbytes]⟩

/-- **`net_pkt_pull` removes the range** (net_pkt.c:1842-1934), exactly if what is to be cut in the first buffer
fits into eight bits or the content makes up for it. -/
theorem netPktPull_cuts (frags : List NetBuf) (offset n : Nat) (hn : 1 ≤ n) (hle : offset + n ≤ (bytes frags).length) :
    (∃ frags', netPktPull frags offset n = some (frags', 0) ∧
      bytes frags' = (bytes frags).take offset ++ (bytes frags).drop (offset + n)) ↔
      pullFits frags offset n = true := by
  obtain ⟨passed, rest, p, hwalk, rfl, hp, hhead⟩ := walk_offset frags offset
  rw [bytes_append, length_append] at hle
  cases rest with
  | nil =>
    rw [bytes_nil, length_nil] at hle
    omega
  | cons b rest =>
    have hin := hhead b rfl
    rw [netPktPull_behind hn hwalk hp]
    by_cases hshort : p = 0 ∨ b.len < p + 256
    · refine iff_of_true (pullLoop_spec (by simpa [hin] using hshort) (by omega)) ?_
      simp only [pullFits, hwalk, Bool.or_eq_true, decide_eq_true_eq, hshort, true_or]
    · obtain ⟨hp0, hlong⟩ := not_or.1 hshort
      rw [pullLoop_long hp0 (by omega) hn]
      simp only [pullFits, hwalk, Bool.or_eq_true, Bool.and_eq_true, decide_eq_true_eq, hshort, false_or]

/-- From inside of the first buffer over a whole one into the third. -/
theorem netPktPull_cuts_threeBuffers :
    ∃ frags', netPktPull [⟨[1, 2], []⟩, ⟨[3], [9]⟩, ⟨[4, 5, 6], []⟩] 1 4 = some (frags', 0) ∧
      bytes frags' = (bytes [⟨[1, 2], []⟩, ⟨[3], [9]⟩, ⟨[4, 5, 6], []⟩]).take 1 ++
      (bytes [⟨[1, 2], []⟩, ⟨[3], [9]⟩, ⟨[4, 5, 6], []⟩]).drop (1 + 4) :=
  (netPktPull_cuts _ 1 4 (by decide) (by decide)).2 (by decide)

/-- The bytes 0, 1, 2, .. in one buffer. -/
def longBuf : NetBuf := ⟨(List.range 300).map UInt8.ofNat, []⟩

/-- **A long buffer keeps the wrong bytes** (net_pkt.c:1907). Of 300 bytes the twenty from 10 on are to be
removed. `avail` is 290 - 256 = 34, so fourteen bytes are moved down in place of 270: behind the byte 43 is 24 and
not 44, and the last twenty bytes are gone. The result is 0. -/
theorem long_pull_shifts :
    ∃ frags', netPktPull [longBuf] 10 20 = some (frags', 0) ∧ (bytes frags').length = 280 ∧
      (bytes frags')[23]? = some 43 ∧ (bytes frags')[24]? = some 24 ∧
      ((bytes [longBuf]).take 10 ++ (bytes [longBuf]).drop (10 + 20))[24]? = some 44 ∧
      bytes frags' ≠ (bytes [longBuf]).take 10 ++ (bytes [longBuf]).drop (10 + 20) := by
  have hpull : (netPktPull [longBuf] 10 20).map
    (fun r => (r.2, (bytes r.1).length, (bytes r.1)[23]?, (bytes r.1)[24]?)) =
      some (0, 280, some 43, some 24) := by decide +kernel
  have hwant : ((bytes [longBuf]).take 10 ++ (bytes [longBuf]).drop (10 + 20))[24]? = some 44 := by decide +kernel
  obtain ⟨⟨frags', res⟩, hrun, hfields⟩ := Option.map_eq_some_iff.1 hpull
  simp only [Prod.mk.injEq] at hfields
  obtain ⟨rfl, hlen, h23, h24⟩ := hfields
  refine ⟨frags', hrun, hlen, h23, h24, hwant, fun heq => ?_⟩
  rw [← heq, h24] at hwant
  exact absurd hwant (by decide)

end Zephyr
