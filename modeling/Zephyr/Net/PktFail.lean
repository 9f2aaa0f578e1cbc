import Zephyr.Net.PktEdit
import Zephyr.Net.PktPull
/-!
# What a failed edit leaves (subsys/net/ip/net_pkt.c:1546-1721, :1842-1934)

`net_pkt_split` allocates before it changes anything. `net_pkt_insert` moves what is behind the position into a
buffer of its own first, which is linked again only when all of the data is in: `failed_edits_lose`. `net_pkt_pull`
shortens and drops buffers while it still counts.
-/
namespace Zephyr

open Chunks List Option

section

variable {supply frags temp : List NetBuf} {b : NetBuf} {o n : Nat} {d : List UInt8}

theorem netPktSplit_fails {r : SplitResult} (hr : netPktSplit supply frags o = some r) (hneg : r.ret < 0) :
    r.frags = frags := by
  unfold netPktSplit at hr
  split at hr
  · cases hr
    rfl
  · split at hr
    · cases hr
      rfl
    · cases hr
      rfl
    · obtain ⟨rest, -, hr⟩ := Option.bind_eq_some_iff.1 hr
      cases hr
      exact absurd hneg (Int.lt_irrefl 0)

/-! ## Pulling -/

/-- All that is behind the position is gone when the loop runs out of buffers. -/
theorem pullLoop_fails {r : List NetBuf × Nat} (ho : ∀ b ∈ frags.head?, o ≤ b.len)
    (hr : pullLoop frags o n = some r) (hleft : r.2 ≠ 0) :
    bytes r.1 = (bytes frags).take o := by
  fun_induction pullLoop frags o n generalizing r with
  | case1 =>
    cases hr
    exact absurd rfl hleft
  | case2 =>
    cases hr
    rw [bytes_nil, take_nil]
  | case3 b frags n _ _ ih => exact ih (fun _ _ => Nat.zero_le _) hr hleft
  | case4 =>
    obtain ⟨_, -, hr⟩ := Option.bind_eq_some_iff.1 hr
    cases hr
    exact absurd rfl hleft
  | case5 b frags o n =>
    rename_i ih
    obtain ⟨⟨frags', left⟩, hloop, hr⟩ := Option.bind_eq_some_iff.1 hr
    cases hr
    rw [bytes_cons, bytes_cons, ih (fun _ _ => Nat.zero_le _) hloop hleft,
      take_append_of_le_length (ho b rfl), take_zero, append_nil]
    rfl
  | case6 =>
    obtain ⟨_, -, hr⟩ := Option.bind_eq_some_iff.1 hr
    cases hr
    exact absurd rfl hleft

theorem netPktPull_fails {r : List NetBuf × ℤ} (hr : netPktPull frags o n = some r) (hneg : r.2 < 0) :
    bytes r.1 = bytes frags ↔ n = 0 ∨ (bytes frags).length ≤ o := by
  by_cases hn : n = 0
  · rw [netPktPull, if_pos hn] at hr
    cases hr
    exact ⟨fun _ => .inl hn, fun _ => rfl⟩
  obtain ⟨passed, rest, p, hwalk, hc, hp, hhead⟩ := walk_offset frags o
  rw [netPktPull, if_neg hn, hwalk] at hr
  cases rest with
  | nil =>
    cases hr
    rw [append_nil] at hc
    subst hc
    exact ⟨fun _ => .inr (by omega), fun _ => rfl⟩
  | cons b rest =>
    have hin := hhead b rfl
    obtain ⟨⟨rest', left⟩, hloop, hr⟩ := Option.bind_eq_some_iff.1 hr
    cases hr
    have hleft : left ≠ 0 := by
      rintro rfl
      exact Int.lt_irrefl 0 hneg
    have hlen : (bytes frags).length = (bytes passed).length + (b.len + (bytes rest).length) := by simp [hc]
    have hkept : (bytes (passed ++ rest')).length = o := by
      rw [bytes_append, pullLoop_fails (fun b hb => Nat.le_of_lt (hhead b hb)) hloop hleft, length_append,
        length_take, bytes_cons, length_append, NetBuf.length_data]
      omega
    refine ⟨fun hsame => ?_, ?_⟩
    · have := congrArg List.length hsame
      dsimp only at this
      omega
    · rintro (h | h)
      · exact absurd h hn
      · omega

/-! ## Inserting -/

/-- As much of the data is in as there is space for, and `temp` is not. -/
theorem insertData_fails {r : Bool × List NetBuf × List NetBuf} (hfresh : ∀ x ∈ supply, x.data = [])
    (hr : insertData temp frags supply b b.len d = some r) (hfalse : r.1 = false) :
    bytes r.2.1 = b.data ++ d.take (b.tailroom + (supply.map NetBuf.tailroom).sum) ++ bytes frags := by
  obtain ⟨count, first, new, supply', happend, hres, -⟩ :=
    @netBufAppendBytes_spec (fun _ => True) supply b d (fun x hx => ⟨hfresh x hx, trivial⟩) trivial
  rw [insertData_eq hfresh, happend, map_some] at hr
  cases hr
  have hne : count ≠ d.length := of_decide_eq_false hfalse
  have hnone := (hres.short (Nat.lt_of_le_of_ne hres.le hne)).2
  have hspace := hres.space
  rw [hnone, Nat.zero_add] at hspace
  rw [if_neg hne, nil_append, bytes_append, hres.bytes, hspace]

theorem insertCompact_fails {passed : List NetBuf} {r r' : Bool × List NetBuf × List NetBuf}
    (hr : insertCompact passed r = some r') (hfalse : r'.1 = false) : r.1 = false ∧ r'.2.1 = passed ++ r.2.1 := by
  unfold insertCompact at hr
  split at hr
  · obtain ⟨_, -, rfl⟩ := map_eq_some_iff.1 hr
    cases hfalse
  · next h =>
    cases hr
    exact ⟨by simpa using h, rfl⟩

/-- What stands in the place of the rest of `b`. -/
theorem insertRest_keeps {passed left : List NetBuf} {r r' : Bool × List NetBuf × List NetBuf} {p : Nat}
    (hle : p ≤ b.len) (hleft : ∀ x ∈ left, x.data = [])
    (hdata : insertData temp frags left (b.shrink p) p d = some r') (hcompact : insertCompact passed r' = some r)
    (hfalse : r.1 = false) :
    bytes r.2.1 = bytes (passed ++ b :: frags) ↔
      d.take (b.room - p + (left.map NetBuf.tailroom).sum) = b.data.drop p := by
  obtain ⟨hfalse', hbytes⟩ := insertCompact_fails hcompact hfalse
  have hshrink : (b.shrink p).len = p := by
    change (b.data.take p).length = p
    rw [length_take, NetBuf.length_data, Nat.min_eq_left hle]
  have hroom : (b.shrink p).tailroom = b.room - p := by
    rw [← NetBuf.room_shrink (n := p), NetBuf.room, hshrink, Nat.add_sub_cancel_left]
  have hk := insertData_fails (b := b.shrink p) hleft (by rw [hshrink]; exact hdata) hfalse'
  rw [hbytes, bytes_append, hk, hroom, bytes_append, bytes_cons, append_cancel_left_eq, append_cancel_right_eq]
  conv_lhs => rhs; rw [← take_append_drop p b.data]
  exact append_right_inj (b.data.take p)

/-- **Where a failed insert of `d` does not show**: there is no buffer to insert in, or none to save what follows
in it; or as much of the data as there is space for is what followed. -/
def insertKeeps (supply frags : List NetBuf) (o : Nat) (d : List UInt8) : Bool :=
  match adjustInsertOffset frags o with
  | (_, [], _) => true
  | (_, b :: _, p) =>
    let rest := b.data.drop p
    let left := if rest = [] then supply else supply.tail
    rest ≠ [] && supply = [] || d.take (b.room - p + (left.map NetBuf.tailroom).sum) = rest

theorem netPktInsert_fails {r : Bool × List NetBuf × List NetBuf} {len : Nat} {data : Option (List UInt8)}
    (hfresh : ∀ x ∈ supply, x.data = []) (hr : netPktInsert supply frags o len data = some r) (hfalse : r.1 = false) :
    bytes r.2.1 = bytes frags ↔ insertKeeps supply frags o (insertBlock len data) = true := by
  obtain ⟨passed, rest, p, hadjust, rfl, rfl, hhead⟩ := adjustInsertOffset_spec frags o
  unfold netPktInsert at hr
  unfold insertKeeps
  rw [hadjust] at hr ⊢
  cases rest with
  | nil =>
    cases hr
    exact iff_of_true rfl rfl
  | cons b back =>
    have hle := (hhead b rfl).1
    by_cases hrest : b.data.drop p = []
    · have hp : p = b.len := Nat.le_antisymm hle (by simpa using hrest)
      replace hr : ite (b.len - p ≠ 0) _ _ = some r := hr
      rw [if_neg (by omega)] at hr
      obtain ⟨r', hdata, hr⟩ := Option.bind_eq_some_iff.1 hr
      have hsame : b = b.shrink p := by
        rw [hp, NetBuf.shrink, ← NetBuf.length_data, take_length, drop_length, nil_append]
      rw [hsame] at hdata
      have := insertRest_keeps hle hfresh hdata hr hfalse
      simpa [hrest] using this
    · have hlen : b.len - p ≠ 0 := fun h => hrest (by rw [drop_eq_nil_iff, NetBuf.length_data]; omega)
      replace hr : ite (b.len - p ≠ 0) _ _ = some r := hr
      rw [if_pos hlen] at hr
      cases supply with
      | nil =>
        cases hr
        exact iff_of_true rfl (by simp [hrest])
      | cons temp supply =>
        obtain ⟨temp', -, hr⟩ := Option.bind_eq_some_iff.1 hr
        obtain ⟨r', hdata, hr⟩ := Option.bind_eq_some_iff.1 hr
        have := insertRest_keeps hle (fun x hx => hfresh x (mem_cons_of_mem _ hx)) hdata hr hfalse
        simpa [hrest] using this

end

/-- **What is left of a packet when an edit fails**, with an allocator that fails from any call on. A split changes
nothing. A range that does not end in the packet takes all from its start with it. An insert changes nothing
exactly if it fails at its first allocation, or what it has put in is what was there. -/
theorem netPkt_failed_edits (supply frags : List NetBuf) (o n : Nat) (data : Option (List UInt8)) :
    (∀ r, netPktSplit supply frags o = some r → r.ret < 0 → bytes r.frags = bytes frags) ∧
      (∀ r, netPktPull frags o n = some r → r.2 < 0 → (bytes r.1 = bytes frags ↔ n = 0 ∨ (bytes frags).length ≤ o)) ∧
      ((∀ x ∈ supply, x.data = []) → ∀ r, netPktInsert supply frags o n data = some r → r.1 = false →
        (bytes r.2.1 = bytes frags ↔ insertKeeps supply frags o (insertBlock n data) = true)) := by
  refine ⟨fun r hr hneg => ?_, fun r hr hneg => netPktPull_fails hr hneg, fun hfresh r hr hfalse =>
    netPktInsert_fails hfresh hr hfalse⟩
  rw [netPktSplit_fails hr hneg]

/-- Without a buffer at hand, and with one but not the second, where the data is put into an empty buffer and stays
there. -/
theorem netPkt_failed_edits_noBuffer :
    (netPktInsert [] [⟨[1, 2], [0]⟩] 1 1 (some [7]) = some (false, [⟨[1, 2], [0]⟩], []) ∧
      bytes [⟨[1, 2], [0]⟩] = [1, 2]) ∧
      netPktInsert [] [⟨[1, 2], []⟩, ⟨[], [0]⟩] 2 3 (some [7, 8, 9]) = some (false, [⟨[1, 2], []⟩, ⟨[7], []⟩], []) ∧
      bytes [⟨[1, 2], []⟩, ⟨[7], []⟩] ≠ bytes [⟨[1, 2], []⟩, ⟨[], [0]⟩] := by
  have hfirst : netPktInsert [] [⟨[1, 2], [0]⟩] 1 1 (some [7]) = some (false, [⟨[1, 2], [0]⟩], []) := by decide
  have hsecond : netPktInsert [] [⟨[1, 2], []⟩, ⟨[], [0]⟩] 2 3 (some [7, 8, 9]) = some
    (false, [⟨[1, 2], []⟩, ⟨[7], []⟩], []) := by
    decide
  refine ⟨⟨hfirst, ((netPkt_failed_edits [] [⟨[1, 2], [0]⟩] 1 1 (some [7])).2.2 nofun _ hfirst rfl).2
    (by decide)⟩, hsecond, fun hsame => ?_⟩
  exact absurd (((netPkt_failed_edits [] [⟨[1, 2], []⟩, ⟨[], [0]⟩] 2 3
    (some [7, 8, 9])).2.2 nofun _ hsecond rfl).1 hsame) (by decide)

/-- **An edit that fails changes the packet.** Three bytes are to be inserted behind the first one, and there is
one buffer: it takes the 2, and when no second one is got it stays with it. Five bytes are to be cut behind the
first one, and there is one: it is gone, and the result is `-EINVAL`. -/
theorem failed_edits_lose :
    netPktInsert [⟨[], [0, 0]⟩] [⟨[1, 2], []⟩] 1 3 (some [7, 8, 9]) = some (false, [⟨[1, 7], []⟩], []) ∧
      netPktPull [⟨[1, 2], []⟩] 1 5 = some ([⟨[1], [2]⟩], einval) ∧ einval < 0 ∧
      bytes [⟨[1, 2], []⟩] = [1, 2] ∧ bytes [⟨[1, 7], []⟩] = [1, 7] ∧ bytes [⟨[1], [2]⟩] = [1] := by
  decide

end Zephyr
