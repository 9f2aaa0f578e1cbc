import Zephyr.Kernel.Api
import Zephyr.Net.PktCopy
/-!
# Copies of a range of a packet (subsys/net/ip/net_pkt.c:942-1077, subsys/net/buf.c:675-718)

`net_buf_linearize` and `net_frag_linear_copy` have the same loop; the bytes are put one behind the other from the
start of the destination on. The room of the destination of the second one is `dst->size`, which counts what is
reserved before `dst->data` as well. `net_pkt_copy` gives up if the first buffer of the packet is empty
(net_pkt.c:973): `empty_first_copied`.
-/
namespace Zephyr

open Chunks List Option

/-- What the loop copies, and how much is left to copy at its end. -/
def gather : List NetBuf → Nat → Nat → List UInt8 × Nat
  | [], _, len => ([], len)
  | b :: frags, offset, len =>
    if len = 0 then ([], 0)
    else
      let toCopy := min len (b.len - offset)
      let r := gather frags 0 (len - toCopy)
      ((b.data.drop offset).take toCopy ++ r.1, r.2)

/-- From the right fragment on. -/
def gatherFrom (src : List NetBuf) (offset len : Nat) : List UInt8 × Nat :=
  match walk NetBuf.data (fun o l => o < l) src offset with
  | (_, src, offset) => gather src offset len

def netBufLinearize (dst : List UInt8) (src : List NetBuf) (offset len : Nat) : List UInt8 × ℤ :=
  if dst.length < len then (dst, enomem)
  else
    match gatherFrom src offset len with
    | (copied, left) => (copied ++ (dst.map fun _ => 0).drop copied.length, if 0 < left then enomem else copied.length)

/-- `none` is outside of the destination. -/
def netFragLinearCopy (size : Nat) (dst : NetBuf) (src : List NetBuf) (offset len : Nat) : Option (NetBuf × ℤ) :=
  if size < len then some (dst, enomem)
  else
    match gatherFrom src offset len with
    | (copied, left) => do
      let dst ← dst.put 0 copied
      some (if 0 < left then (dst, enomem) else (⟨dst.mem.take copied.length, dst.mem.drop copied.length⟩, 0))

/-- `none` is a packet without a fragment. -/
def netPktCopy (supply frags : List NetBuf) (amount reserve : Nat) : Option (Option (List NetBuf) × List NetBuf) :=
  match supply with
  | [] => some (none, [])
  | frag :: supply =>
    if frag.tailroom < reserve then some (none, supply)
    else do
      let frag ← frag.add reserve
      match frags with
      | [] => none
      | orig :: _ => if orig.len = 0 then some (some [frag], supply) else copyLoop frags supply frag amount

section

variable {frags supply : List NetBuf} {dst : List UInt8} {buf : NetBuf} {o n cap amount reserve : Nat}

theorem gather_spec (ho : ∀ b ∈ frags.head?, o ≤ b.len) :
    gather frags o n = (((bytes frags).drop o).take n, n - ((bytes frags).length - o)) := by
  induction frags generalizing o n with
  | nil => simp [gather]
  | cons b frags ih =>
    have hle : o ≤ b.len := ho b rfl
    by_cases hn : n = 0
    · simp [gather, hn]
    · rw [gather, if_neg hn]
      dsimp only
      rw [ih (fun _ _ => Nat.zero_le _), bytes_cons, drop_append_of_le_length hle, take_append, length_append,
        length_drop, NetBuf.length_data, drop_zero]
      refine Prod.ext ?_ ?_
      · have hfront : (b.data.drop o).take (min n (b.len - o)) = (b.data.drop o).take n := by
          rw [take_eq_take_iff, length_drop, NetBuf.length_data]
          omega
        have hback : n - min n (b.len - o) = n - (b.len - o) := by omega
        rw [hfront, hback]
      · change n - min n (b.len - o) - (_ - 0) = _
        omega

theorem gatherFrom_spec : gatherFrom frags o n = (((bytes frags).drop o).take n, n - ((bytes frags).length - o)) := by
  obtain ⟨passed, rest, p, hwalk, rfl, rfl, hhead⟩ := walk_offset frags o
  rw [gatherFrom, hwalk]
  dsimp only
  rw [gather_spec fun b hb => Nat.le_of_lt (hhead b hb), bytes_append, drop_length_add_append, length_append,
    Nat.add_sub_add_left]

/-- **`net_buf_linearize` (buf.c:675)** -/
theorem netBufLinearize_spec :
    (0 ≤ (netBufLinearize dst frags o n).2 ↔ n ≤ dst.length ∧ (o + n ≤ (bytes frags).length ∨ n = 0)) ∧
      (0 ≤ (netBufLinearize dst frags o n).2 → (netBufLinearize dst frags o n).2 = n ∧
        (netBufLinearize dst frags o n).1.take n = ((bytes frags).drop o).take n) := by
  have hneg : ¬ (0 : ℤ) ≤ enomem := by decide
  unfold netBufLinearize
  split
  · next h => exact ⟨iff_of_false hneg (by omega), fun h' => absurd h' hneg⟩
  · next h =>
    rw [gatherFrom_spec]
    dsimp only
    split
    · next hleft => exact ⟨iff_of_false hneg (by omega), fun h' => absurd h' hneg⟩
    · next hleft =>
      have hlen : (((bytes frags).drop o).take n).length = n := by
        rw [length_take, length_drop]
        omega
      refine ⟨⟨fun _ => by omega, fun _ => Int.natCast_nonneg _⟩, fun _ => ⟨by rw [hlen], ?_⟩⟩
      rw [hlen, take_append_of_le_length (Nat.le_of_eq hlen.symm), take_take, Nat.min_self]

/-- **`net_frag_linear_copy` (net_pkt.c:1040)** into a buffer without headroom. -/
theorem netFragLinearCopy_spec : ∃ r, netFragLinearCopy buf.room buf frags o n = some r ∧
    (0 ≤ r.2 ↔ n ≤ buf.room ∧ (o + n ≤ (bytes frags).length ∨ n = 0)) ∧
    (0 ≤ r.2 → r.1.data = ((bytes frags).drop o).take n) := by
  have hneg : ¬ (0 : ℤ) ≤ enomem := by decide
  unfold netFragLinearCopy
  split
  · next h => exact ⟨_, rfl, iff_of_false hneg (by omega), fun h' => absurd h' hneg⟩
  · next h =>
    rw [gatherFrom_spec]
    obtain ⟨buf', hput, hmem, -⟩ := buf.put_spec (o := 0) (d := ((bytes frags).drop o).take n)
      (by rw [length_take]; omega)
    dsimp only
    rw [hput, bind_eq_bind, bind_some]
    refine ⟨_, rfl, ?_⟩
    split
    · next hleft => exact ⟨iff_of_false hneg (by omega), fun h' => absurd h' hneg⟩
    · next hleft =>
      refine ⟨⟨fun _ => by omega, fun _ => Int.le_refl 0⟩, fun _ => ?_⟩
      rw [hmem, take_zero, nil_append]
      exact take_left

/-- The copy is `data` behind the bytes that are reserved. -/
def CopyOf (reserve : Nat) (data : List UInt8) (copy : List NetBuf) : Prop :=
  ∃ reserved, reserved.length = reserve ∧ bytes copy = reserved ++ data

/-- **`net_pkt_copy` (net_pkt.c:942).** Without a copy the buffers have run out. -/
theorem netPktCopy_spec (hne : frags ≠ []) (hfresh : ∀ b ∈ supply, b.data = [])
    (hroom : ∀ b ∈ supply, b.room = cap) (hres : reserve ≤ cap) :
    ∃ r, netPktCopy supply frags amount reserve = some r ∧ (r.1 = none → r.2 = []) ∧
      ((∀ copy, r.1 = some copy → CopyOf reserve ((bytes frags).take amount) copy) ↔
        supply = [] ∨ (∀ b ∈ frags.head?, b.data ≠ []) ∨ amount = 0 ∨ bytes frags = []) := by
  cases supply with
  | nil => exact ⟨(none, []), rfl, fun _ => rfl, iff_of_true (fun _ h => by cases h) (.inl rfl)⟩
  | cons frag supply =>
    have hempty : frag.data = [] := hfresh frag mem_cons_self
    have htail : reserve ≤ frag.tailroom := by
      have hlen : frag.len = 0 := length_eq_zero_iff.2 hempty
      have := hroom frag mem_cons_self
      simp only [NetBuf.room] at this
      omega
    have hreserved : (frag.spare.take reserve).length = reserve := by
      rw [length_take, NetBuf.length_spare, Nat.min_eq_left htail]
    obtain ⟨orig, origs, rfl⟩ := exists_cons_of_ne_nil hne
    by_cases hlen : orig.len = 0
    · -- only the reserved bytes are in the copy
      have horig : orig.data = [] := length_eq_zero_iff.1 hlen
      refine ⟨(some [⟨frag.data ++ frag.spare.take reserve, frag.spare.drop reserve⟩], supply), ?_,
        fun h => absurd h (Option.some_ne_none _), ?_, ?_⟩
      · simp only [netPktCopy, if_neg (Nat.not_lt.2 htail), NetBuf.add, if_pos htail, bind_eq_bind, bind_some,
          if_pos hlen]
      · intro hok
        obtain ⟨reserved, hlength, hbytes⟩ := hok _ rfl
        have htake := congrArg length hbytes
        rw [bytes_cons, bytes_nil, append_nil, hempty, nil_append, length_append, hreserved, hlength] at htake
        exact .inr (.inr (take_eq_nil_iff.1 (length_eq_zero_iff.1 (by omega))))
      · rintro hwhen copy ⟨⟩
        have hnone : (bytes (orig :: origs)).take amount = [] :=
          take_eq_nil_iff.2 ((hwhen.resolve_left (cons_ne_nil _ _)).resolve_left fun h => h orig rfl horig)
        refine ⟨_, hreserved, ?_⟩
        rw [hnone, bytes_cons, bytes_nil, append_nil, append_nil, hempty, nil_append]
    · have horig : ∀ b ∈ (orig :: origs).head?, b.data ≠ [] := by
        rintro b ⟨⟩ h
        exact hlen (length_eq_zero_iff.2 h)
      obtain ⟨r, hr, hdrawn, hok⟩ := @copyLoop_spec (fun _ => True) supply
        ⟨frag.data ++ frag.spare.take reserve, frag.spare.drop reserve⟩ (orig :: origs) amount
        (fun b hb => ⟨hfresh b (mem_cons_of_mem _ hb), trivial⟩) trivial
      refine ⟨r, ?_, hdrawn.none, iff_of_true (fun copy h => ⟨frag.spare.take reserve, hreserved, ?_⟩)
        (.inr (.inl horig))⟩
      · simp only [netPktCopy, if_neg (Nat.not_lt.2 htail), NetBuf.add, if_pos htail, bind_eq_bind, bind_some,
          if_neg hlen, hr]
      · rw [(hok copy h).1, hempty, nil_append]

end

/-- **The copies out of a chain of buffers are slices of its content** (net_pkt.c:942-1077, buf.c:675-718): the
linear ones always, into a buffer without headroom, and `net_pkt_copy` exactly if the first buffer is not empty,
there is nothing to copy or no buffer to copy to. -/
theorem chain_copies (cap : Nat) (supply frags : List NetBuf) (buf : NetBuf) (dst : List UInt8)
    (o n amount reserve : Nat) :
    ((0 ≤ (netBufLinearize dst frags o n).2 ↔ n ≤ dst.length ∧ (o + n ≤ (bytes frags).length ∨ n = 0)) ∧
      (0 ≤ (netBufLinearize dst frags o n).2 → (netBufLinearize dst frags o n).2 = n ∧
        (netBufLinearize dst frags o n).1.take n = ((bytes frags).drop o).take n)) ∧
    (∃ r, netFragLinearCopy buf.room buf frags o n = some r ∧
      (0 ≤ r.2 ↔ n ≤ buf.room ∧ (o + n ≤ (bytes frags).length ∨ n = 0)) ∧
      (0 ≤ r.2 → r.1.data = ((bytes frags).drop o).take n)) ∧
    (frags ≠ [] → (∀ b ∈ supply, b.data = []) → (∀ b ∈ supply, b.room = cap) → reserve ≤ cap →
      ∃ r, netPktCopy supply frags amount reserve = some r ∧ (r.1 = none → r.2 = []) ∧
        ((∀ copy, r.1 = some copy → CopyOf reserve ((bytes frags).take amount) copy) ↔
          supply = [] ∨ (∀ b ∈ frags.head?, b.data ≠ []) ∨ amount = 0 ∨ bytes frags = [])) :=
  ⟨netBufLinearize_spec, netFragLinearCopy_spec, netPktCopy_spec⟩

/-- Two of three bytes behind one that is reserved, over an empty buffer. -/
theorem chain_copies_overGap :
    netPktCopy [⟨[], [0, 0]⟩, ⟨[], [0, 0]⟩] [⟨[1], []⟩, ⟨[], []⟩, ⟨[2, 3], []⟩] 2 1 = some
    (some [⟨[0, 1], []⟩, ⟨[2], [0]⟩], []) ∧ CopyOf 1 [1, 2] [⟨[0, 1], []⟩, ⟨[2], [0]⟩] := by
  have hrun : netPktCopy [⟨[], [0, 0]⟩, ⟨[], [0, 0]⟩] [⟨[1], []⟩, ⟨[], []⟩, ⟨[2, 3], []⟩] 2 1 =
      some (some [⟨[0, 1], []⟩, ⟨[2], [0]⟩], []) := by decide
  obtain ⟨r, hr, -, hcopy⟩ := (chain_copies 2 [⟨[], [0, 0]⟩, ⟨[], [0, 0]⟩] [⟨[1], []⟩, ⟨[], []⟩, ⟨[2, 3], []⟩]
    ⟨[], []⟩ [] 0 0 2 1).2.2
    (by decide) (by decide) (by decide) (by decide)
  obtain rfl := Option.some.inj (hrun.symm.trans hr)
  exact ⟨hrun, hcopy.2 (.inr (.inl (by decide))) _ rfl⟩

/-- **The copy of a packet that begins with an empty buffer is empty** (net_pkt.c:973), and no failure:
`net_buf_linearize` reads its three bytes. -/
theorem empty_first_copied :
    netPktCopy [⟨[], [0, 0, 0, 0]⟩] [⟨[], [9]⟩, ⟨[1, 2, 3], []⟩] 3 0 = some (some [⟨[], [0, 0, 0, 0]⟩], []) ∧
      bytes [⟨[], [0, 0, 0, 0]⟩] = [] ∧ (bytes [⟨[], [9]⟩, ⟨[1, 2, 3], []⟩]).take 3 = [1, 2, 3] ∧
      netBufLinearize [7, 7, 7] [⟨[], [9]⟩, ⟨[1, 2, 3], []⟩] 0 3 = ([1, 2, 3], 3) := by
  decide

end Zephyr
