import Zephyr.Net.Buf
/-!
# Writing into a packet (subsys/net/ip/net_pkt.c:1382-1544)

Both loops go by the free space of a buffer and not by its length. A buffer that is not full and has data behind it
is filled up, and all that is behind it moves: `partly_filled_inserts`. The interface says so
(net_pkt.h:1495-1502): offsets are counted by size.
-/
namespace Zephyr

open Chunks List Option Nat

structure Cursor where
  passed : List NetBuf
  frag : List NetBuf
  pos : Nat
  supply : List NetBuf
deriving DecidableEq

namespace Cursor

/-- The packet. -/
def frags (r : Cursor) : List NetBuf := r.passed ++ r.frag

def pass (b : NetBuf) (r : Cursor) : Cursor := { r with passed := b :: r.passed }

end Cursor

def checkAndCreateData : List NetBuf → List NetBuf → List NetBuf × List NetBuf
  | [], [] => ([], [])
  | [], frag :: supply => ([frag], supply)
  | data, supply => (data, supply)

/-- The next buffer, from its start. -/
def nextData (b : NetBuf) (frags supply : List NetBuf) : Cursor :=
  let (frags, supply) := checkAndCreateData frags supply
  ⟨[b], frags, 0, supply⟩

def adjustRound (b : NetBuf) (frags supply : List NetBuf) (offset : Nat) (again : Nat → Option Cursor) :
    Option Cursor :=
  if offset < b.len then some ⟨[], b :: frags, offset, supply⟩
  else if offset = b.len then
    if b.tailroom ≠ 0 then some ⟨[], b :: frags, offset, supply⟩ else some (nextData b frags supply)
  else do
    let tailroom := b.tailroom
    let offset := offset - b.len
    if offset < tailroom then
      let b ← b.add offset
      some ⟨[], b :: frags, b.len, supply⟩
    else
      let b ← b.add tailroom
      if offset = tailroom then some (nextData b frags supply)
      else (again (offset - tailroom)).map (·.pass b)

def adjustNew : List NetBuf → Nat → Option Cursor
  | [], _ => some ⟨[], [], 0xffff, []⟩
  | b :: supply, offset => adjustRound b [] supply offset (adjustNew supply)

def adjustWriteOffset (supply : List NetBuf) : List NetBuf → Nat → Option Cursor
  | [], offset => adjustNew supply offset
  | b :: frags, offset => adjustRound b frags supply offset (adjustWriteOffset supply frags)

def NetBuf.write (b : NetBuf) (offset : Nat) (d : List UInt8) : Option NetBuf := do
  let b ← b.put offset d
  if b.len < offset + d.length then b.add (offset + d.length - b.len) else some b

def writeRound (b : NetBuf) (frags supply : List NetBuf) (offset : Nat) (data : List UInt8)
    (again : List UInt8 → Option Cursor) :
    Option Cursor := do
  let space := b.room - offset
  let count := min data.length space
  let b ← b.write offset (data.take count)
  if data.length = count then some ⟨[], b :: frags, offset + count, supply⟩
  else (again (data.drop count)).map (·.pass b)

def writeNew : List NetBuf → List UInt8 → Option Cursor
  | [], _ => some ⟨[], [], 0xffff, []⟩
  | b :: supply, data => writeRound b [] supply 0 data (writeNew supply)

def netPktWriteLoop (supply : List NetBuf) : List NetBuf → Nat → List UInt8 → Option Cursor
  | [], _, data => writeNew supply data
  | b :: frags, offset, data => writeRound b frags supply offset data (netPktWriteLoop supply frags 0)

def netPktWrite (supply frags : List NetBuf) (offset : Nat) (data : List UInt8) : Option Cursor := do
  let c ← adjustWriteOffset supply frags offset
  if c.frag = [] then some { c with pos := 0xffff }
  else
    let r ← netPktWriteLoop c.supply c.frag c.pos data
    some { r with passed := c.passed ++ r.passed }

/-! ## What is to hold -/

/-- `B` with `d` in place of what is at `o`; it gets longer when `d` reaches over its end. -/
def overwrite (B : List UInt8) (o : Nat) (d : List UInt8) : List UInt8 := B.take o ++ d ++ B.drop (o + d.length)

/-- No buffer that has free space and data behind it ends before `e`. -/
def NoHole : List NetBuf → Nat → Prop
  | [], _ => True
  | b :: frags, e => (b.tailroom ≠ 0 → bytes frags ≠ [] → e ≤ b.len) ∧ NoHole frags (e - b.len)

instance NoHole.decide : ∀ frags e, Decidable (NoHole frags e)
  | [], _ => .isTrue trivial
  | b :: frags, e => @instDecidableAnd _ _ _ (NoHole.decide frags (e - b.len))

theorem noHole_of_empty {frags : List NetBuf} (h : bytes frags = []) (e : Nat) : NoHole frags e := by
  induction frags generalizing e with
  | nil => trivial
  | cons b frags ih =>
    obtain ⟨-, hrest⟩ := append_eq_nil_iff.1 h
    exact ⟨fun _ hne => absurd hrest hne, ih hrest _⟩

/-! ## One buffer -/

theorem NetBuf.write_area {b : NetBuf} {o : Nat} {d : List UInt8} (h : o + d.length ≤ b.room) :
    ∃ b', b.write o d = some b' ∧ b'.mem = overwrite b.mem o d ∧ b'.len = max b.len (o + d.length) ∧
    b'.room = b.room := by
  obtain ⟨b₁, hput, hmem, hlen, hroom⟩ := put_spec h
  by_cases hgrow : b₁.len < o + d.length
  · have htail : o + d.length - b₁.len ≤ b₁.tailroom := by
      rw [← hroom, room] at h
      omega
    obtain ⟨b', hadd, hmem', hlen'⟩ := add_spec htail
    refine ⟨b', by simp [write, hput, hgrow, hadd], by rw [hmem', hmem, overwrite], by omega, ?_⟩
    rw [← hroom, ← length_mem, ← length_mem, hmem']
  · exact ⟨b₁, by simp [write, hput, hgrow], hmem, by omega, hroom⟩

/-! ## Overwriting -/

section

variable {b : NetBuf} {frags supply : List NetBuf} {o : Nat} {d : List UInt8}

theorem overwrite_append {A R : List UInt8} (ho : o ≤ A.length) (h : o + d.length ≤ A.length ∨ R = []) :
    overwrite A o d ++ R = overwrite (A ++ R) o d := by
  obtain hle | rfl := h
  · rw [overwrite, overwrite, take_append_of_le_length ho, drop_append_of_le_length hle, append_assoc]
  · rw [append_nil, append_nil]

/-- `d` reaches over the end of `A`. -/
theorem overwrite_append_over {A R e d' : List UInt8} (ho : o ≤ A.length) (hd : d = e ++ d')
    (he : A.length ≤ o + e.length)
    (h : A.length = o + e.length ∨ R = []) : overwrite A o e ++ overwrite R 0 d' = overwrite (A ++ R) o d := by
  have hA : overwrite A o e = A.take o ++ e := by rw [overwrite, drop_eq_nil_of_le he, append_nil]
  have hdrop : (A ++ R).drop (o + d.length) = R.drop d'.length := by
    obtain hfull | rfl := h
    · have hlen : o + d.length = A.length + d'.length := by rw [hd, length_append, hfull, add_assoc]
      rw [hlen, drop_length_add_append]
    · rw [append_nil, drop_nil, drop_eq_nil_of_le]
      rw [hd, length_append]
      omega
  have hR : overwrite R 0 d' = d' ++ R.drop d'.length := by rw [overwrite, take_zero, nil_append, zero_add]
  rw [hA, hR, overwrite, hdrop, take_append_of_le_length ho, hd]
  simp only [append_assoc]

theorem length_overwrite {B : List UInt8} (h : o + d.length ≤ B.length) : (overwrite B o d).length = B.length := by
  rw [overwrite, length_append, length_append, length_take, length_drop]
  omega

@[simp] theorem overwrite_nil (B : List UInt8) (o : Nat) : overwrite B o [] = B := by
  rw [overwrite, append_nil, length_nil, add_zero, take_append_drop]

/-! ## One byte -/

/-! ## By size

Without a condition on where there is free space the functions do what the interface says: they count by the size
of the buffers. -/

/-- The position `k` by size. The buffers before it are in use to their ends, the one it is in up to there at
least, and those behind are as they were. -/
structure Reaches (all : List NetBuf) (k : Nat) (r : Cursor) : Prop where
  position : (area r.passed).length + r.pos = k
  full : ∀ b ∈ r.passed, b.tailroom = 0
  here : ∃ b b₀, r.frag = b :: all.drop (r.passed.length + 1) ∧ all[r.passed.length]? = some b₀ ∧
    b.len = max b₀.len r.pos

/-- If the result is not `NULL`, then `d` is in the memory of the buffers at `o`, where the new buffers count. -/
def Fills (supply frags : List NetBuf) (o : Nat) (d : List UInt8) (r : Option Cursor) : Prop :=
  ∃ r', r = some r' ∧ (r'.frag ≠ [] → ∃ taken, supply = taken ++ r'.supply ∧
    area r'.frags = overwrite (area (frags ++ taken)) o d ∧ Reaches (frags ++ taken) (o + d.length) r')

/-- No buffer has another size after it. -/
def FillsIn (supply frags : List NetBuf) (o : Nat) (d : List UInt8) (r : Option Cursor) : Prop :=
  ∃ r', r = some r' ∧ (r'.frag ≠ [] → ∃ taken, supply = taken ++ r'.supply ∧
    area r'.frags = overwrite (area (frags ++ taken)) o d ∧
    Reaches (frags ++ taken) (o + d.length) r' ∧ r'.frags.map NetBuf.room = (frags ++ taken).map NetBuf.room)

variable {b' : NetBuf}

theorem FillsIn.new {r : Option Cursor} (h : FillsIn supply [b] o d r) : FillsIn (b :: supply) [] o d r := by
  obtain ⟨r', hr, hok⟩ := h
  refine ⟨r', hr, fun hne => ?_⟩
  obtain ⟨taken, rfl, hrest⟩ := hok hne
  exact ⟨b :: taken, rfl, hrest⟩

/-- In this buffer. -/
theorem fills_here (hmem : b'.mem = overwrite b.mem o d) (hlen : b'.len = max b.len (o + d.length))
    (hin : o + d.length ≤ b.room) :
    FillsIn supply (b :: frags) o d (some ⟨[], b' :: frags, o + d.length, supply⟩) := by
  rw [← NetBuf.length_mem] at hin
  refine ⟨_, rfl, fun _ => ⟨[], rfl, ?_, ⟨zero_add _, fun _ h => (not_mem_nil h).elim, b', b, ?_, rfl, hlen⟩, ?_⟩⟩
  · change b'.mem ++ area frags = _
    rw [append_nil, area_cons, hmem]
    exact overwrite_append (by omega) (.inl hin)
  · rw [append_nil, length_nil, zero_add, drop_one, tail_cons]
  · change (b' :: frags).map NetBuf.room = _
    rw [append_nil, map_cons, map_cons, ← NetBuf.length_mem, hmem, length_overwrite hin, NetBuf.length_mem]

/-- One buffer more, in use to its end. -/
theorem FillsIn.pass {r : Option Cursor} {o' : Nat} {d' : List UInt8} (h : FillsIn supply frags o' d' r)
    (hroom : b'.room = b.room) (hlen : b.room + (o' + d'.length) = o + d.length) (hfull : b'.tailroom = 0)
    (harea : ∀ R, b'.mem ++ overwrite R o' d' = overwrite (b.mem ++ R) o d) :
    FillsIn supply (b :: frags) o d (r.map (·.pass b')) := by
  obtain ⟨r', rfl, hok⟩ := h
  refine ⟨r'.pass b', rfl, fun hne => ?_⟩
  obtain ⟨taken, hsupply, hmem, ⟨hpos, hpassed, x, x₀, hfrag, hx₀, hx⟩, hrooms⟩ := hok hne
  refine ⟨taken, hsupply, ?_, ⟨?_, ?_, x, x₀, ?_, hx₀, hx⟩, ?_⟩
  · change b'.mem ++ area r'.frags = _
    rw [hmem, harea]
    rfl
  · change (b'.mem ++ area r'.passed).length + r'.pos = _
    rw [length_append, NetBuf.length_mem]
    omega
  · intro y hy
    obtain rfl | hy := mem_cons.1 hy
    · exact hfull
    · exact hpassed y hy
  · change r'.frag = _
    rw [hfrag]
    rfl
  · change b'.room :: r'.frags.map NetBuf.room = b.room :: (frags ++ taken).map NetBuf.room
    rw [hroom, hrooms]

theorem nextData_fills (hmem : b'.mem = b.mem) (hfull : b'.tailroom = 0) :
    FillsIn supply (b :: frags) b.room [] (some (nextData b' frags supply)) := by
  have hstart : ∀ {x : NetBuf} {frags supply : List NetBuf}, FillsIn supply (x :: frags) 0 []
    (some ⟨[], x :: frags, 0, supply⟩) :=
    fun {x} {frags} {supply} => fills_here (by rw [overwrite_nil]) (max_eq_left (zero_le _)).symm (zero_le _)
  have hpass : ∀ {frags supply : List NetBuf} {r : Option Cursor}, FillsIn supply frags 0 [] r →
    FillsIn supply (b :: frags) b.room [] (r.map (·.pass b')) := by
    intro frags supply r h
    refine h.pass (by simpa using congrArg List.length hmem) (by rw [length_nil]) hfull fun R => ?_
    rw [overwrite_nil, overwrite_nil, hmem]
  cases frags with
  | nil =>
    cases supply with
    | nil => exact ⟨_, rfl, fun hne => absurd rfl hne⟩
    | cons x supply =>
      obtain ⟨r', hr, hok⟩ := hpass (hstart : FillsIn supply [x] 0 [] _)
      refine ⟨_, rfl, fun hne => ?_⟩
      cases hr
      obtain ⟨taken, hsupply, hrest⟩ := hok hne
      obtain rfl : taken = [] := append_cancel_right (hsupply.symm : taken ++ supply = [] ++ supply)
      exact ⟨[x], rfl, hrest⟩
  | cons x frags => exact hpass hstart

theorem adjustRound_fills {again : Nat → Option Cursor} (hagain : ∀ o, FillsIn supply frags o [] (again o)) :
    FillsIn supply (b :: frags) o [] (adjustRound b frags supply o again) := by
  have hroom : b.room = b.len + b.tailroom := rfl
  have hhere : o ≤ b.len → FillsIn supply (b :: frags) o [] (some ⟨[], b :: frags, o, supply⟩) := fun hle =>
    fills_here (by rw [overwrite_nil]) (by rw [length_nil, add_zero, max_eq_left hle]) (by rw [length_nil]; omega)
  unfold adjustRound
  split
  · next hlt => exact hhere (le_of_lt hlt)
  split
  · next heq =>
    split
    · exact hhere (le_of_eq heq)
    · next htail =>
      have hfull : b.tailroom = 0 := by simpa using htail
      have hnext : FillsIn supply (b :: frags) b.room [] _ := nextData_fills rfl hfull
      rwa [hroom, hfull, add_zero, ← heq] at hnext
  · dsimp only
    split
    · next hin =>
      obtain ⟨b', hadd, hmem, hlen'⟩ := b.add_spec (le_of_lt hin)
      have hpos : b'.len = o := by omega
      simp only [hadd, bind_eq_bind, bind_some, hpos]
      exact fills_here (by rw [overwrite_nil, hmem]) (by rw [length_nil]; omega) (by rw [length_nil]; omega)
    · obtain ⟨b', hadd, hmem, hlen'⟩ := b.add_spec (le_refl _)
      have hmem' : b'.room = b.room := by simpa using congrArg List.length hmem
      have hfull : b'.tailroom = 0 := by
        rw [NetBuf.room, hlen', hroom] at hmem'
        omega
      simp only [hadd, bind_eq_bind, bind_some]
      split
      · have hnext : FillsIn supply (b :: frags) b.room [] _ := nextData_fills hmem hfull
        rwa [show b.room = o by omega] at hnext
      · refine (hagain _).pass hmem' (by rw [length_nil]; omega) hfull fun R => ?_
        rw [overwrite_nil, overwrite_nil, hmem]

theorem adjustWriteOffset_fills : FillsIn supply frags o [] (adjustWriteOffset supply frags o) := by
  have hnew : ∀ o, FillsIn supply [] o [] (adjustNew supply o) := by
    induction supply with
    | nil => exact fun _ => ⟨_, rfl, fun hne => absurd rfl hne⟩
    | cons b supply ih => exact fun o => (adjustRound_fills ih).new
  induction frags generalizing o with
  | nil => exact hnew o
  | cons b frags ih => exact adjustRound_fills fun _ => ih

theorem writeRound_fills {again : List UInt8 → Option Cursor} (ho : o ≤ b.room)
    (hagain : ∀ d, FillsIn supply frags 0 d (again d)) :
    FillsIn supply (b :: frags) o d (writeRound b frags supply o d again) := by
  by_cases hfits : o + d.length ≤ b.room
  · have hcount : min d.length (b.room - o) = d.length := by omega
    obtain ⟨b', hwrite, hmem, hlen, -⟩ := b.write_area hfits
    have hhere : FillsIn supply (b :: frags) o d _ := fills_here hmem hlen hfits
    simpa [writeRound, hcount, hwrite] using hhere
  · have hcount : min d.length (b.room - o) = b.room - o := by omega
    have hmore : d.length ≠ b.room - o := by omega
    have hlen : (d.take (b.room - o)).length = b.room - o := by rw [length_take]; omega
    obtain ⟨b', hwrite, hmem, hlen', hroom⟩ := b.write_area (show o + (d.take (b.room - o)).length ≤ b.room by omega)
    have hfull : b'.tailroom = 0 := by
      have hsum : b'.room = b'.len + b'.tailroom := rfl
      omega
    have hpass : FillsIn supply (b :: frags) o d ((again (d.drop (b.room - o))).map (·.pass b')) := by
      refine (hagain _).pass hroom (by rw [length_drop]; omega) hfull fun R => ?_
      rw [hmem]
      exact overwrite_append_over (by rwa [NetBuf.length_mem]) (take_append_drop _ _).symm
        (by rw [NetBuf.length_mem]; omega)
        (.inl (by rw [NetBuf.length_mem]; omega))
    simpa [writeRound, hcount, hwrite, hmore] using hpass

theorem netPktWriteLoop_fills (hstart : frags = [] → o = 0) (ho : ∀ b ∈ frags.head?, o ≤ b.room) :
    FillsIn supply frags o d (netPktWriteLoop supply frags o d) := by
  have hnew : ∀ d, FillsIn supply [] 0 d (writeNew supply d) := by
    induction supply with
    | nil => exact fun _ => ⟨_, rfl, fun hne => absurd rfl hne⟩
    | cons b supply ih => exact fun d => (writeRound_fills (zero_le _) ih).new
  induction frags generalizing o d with
  | nil =>
    obtain rfl := hstart rfl
    exact hnew d
  | cons b frags ih => exact writeRound_fills (ho b rfl) fun d => ih (fun _ => rfl) (fun _ _ => zero_le _)

/-! ## `net_pkt_write` -/

theorem netPktWrite_fills : FillsIn supply frags o d (netPktWrite supply frags o d) := by
  obtain ⟨c, hc, hadjust⟩ : FillsIn supply frags o [] _ := adjustWriteOffset_fills
  by_cases hnull : c.frag = []
  · exact ⟨{ c with pos := 0xffff }, by simp [netPktWrite, hc, hnull], fun hne => absurd hnull hne⟩
  · obtain ⟨taken, hsupply, harea, ⟨hplace, hfull, x, x₀, hfrag, hx₀, hx⟩, hrooms⟩ := hadjust hnull
    rw [overwrite_nil] at harea
    rw [length_nil, add_zero] at hplace
    have hin : ∀ b ∈ c.frag.head?, c.pos ≤ b.room := by
      intro b hb
      rw [hfrag] at hb
      obtain rfl : x = b := by simpa using hb
      have : x.room = x.len + x.tailroom := rfl
      omega
    obtain ⟨r, hr, hok⟩ : FillsIn c.supply c.frag c.pos d _ := netPktWriteLoop_fills (fun h => absurd h hnull) hin
    refine ⟨{ r with passed := c.passed ++ r.passed }, by simp [netPktWrite, hc, hnull, hr], fun hne => ?_⟩
    obtain ⟨taken', hsupply', harea', ⟨hplace', hfull', y, y₀, hfrag', hy₀, hy⟩, hrooms'⟩ := hok hne
    have hall : area (frags ++ (taken ++ taken')) = area c.passed ++ area (c.frag ++ taken') := by
      rw [← append_assoc, area_append, ← harea, Cursor.frags, area_append, area_append, append_assoc]
    refine ⟨taken ++ taken', by rw [hsupply, hsupply', append_assoc], ?_, ⟨?_, ?_, y, ?_⟩, ?_⟩
    · change area ((c.passed ++ r.passed) ++ r.frag) = _
      rw [append_assoc, area_append, hall, ← hplace]
      change area c.passed ++ area r.frags = _
      rw [harea', overwrite, overwrite, take_length_add_append, add_assoc, drop_length_add_append]
      simp only [append_assoc]
    · change (area (c.passed ++ r.passed)).length + r.pos = _
      rw [area_append, length_append]
      omega
    · intro b hb
      exact (mem_append.1 hb).elim (hfull b) (hfull' b)
    · -- the buffer that the cursor is in: the one the loop began in, or one behind it
      have hlt : c.passed.length < (frags ++ taken).length := (List.getElem?_eq_some_iff.1 hx₀).1
      have hchain : ∀ i, (x :: ((frags ++ taken).drop (c.passed.length + 1) ++ taken')).drop (i + 1) =
          (frags ++ (taken ++ taken')).drop (c.passed.length + (i + 1)) := by
        intro i
        rw [drop_succ_cons, ← append_assoc, ← drop_append_of_le_length (by omega), drop_drop]
        congr 1
        omega
      have hrest : r.frag = y :: (frags ++ (taken ++ taken')).drop ((c.passed ++ r.passed).length + 1) := by
        rw [hfrag', hfrag, cons_append, hchain, length_append, add_assoc]
      rw [hfrag, cons_append] at hy₀
      cases hpassed : r.passed with
      | nil =>
        obtain rfl : x = y₀ := by simpa [hpassed] using hy₀
        refine ⟨x₀, hpassed ▸ hrest, ?_, ?_⟩
        · change (frags ++ (taken ++ taken'))[(c.passed ++ []).length]? = some x₀
          rw [append_nil, ← append_assoc, List.getElem?_append_left hlt, hx₀]
        · change y.len = max x₀.len r.pos
          rw [hpassed, area_nil, length_nil] at hplace'
          omega
      | cons z zs =>
        refine ⟨y₀, hpassed ▸ hrest, ?_, hy⟩
        have hdrop := congrArg List.head? (hchain zs.length)
        rw [List.head?_drop, List.head?_drop] at hdrop
        rw [hpassed, length_cons, hdrop] at hy₀
        change (frags ++ (taken ++ taken'))[(c.passed ++ z :: zs).length]? = some y₀
        rwa [length_append, length_cons]
    · change ((c.passed ++ r.passed) ++ r.frag).map NetBuf.room = _
      change (r.passed ++ r.frag).map NetBuf.room = _ at hrooms'
      rw [append_assoc, map_append, hrooms', ← map_append, ← append_assoc, ← append_assoc]
      change (c.frags ++ taken').map NetBuf.room = _
      rw [map_append, hrooms, ← map_append]

theorem FillsIn.fills {r : Option Cursor} (h : FillsIn supply frags o d r) : Fills supply frags o d r := by
  obtain ⟨r', hr, hok⟩ := h
  refine ⟨r', hr, fun hne => ?_⟩
  obtain ⟨taken, hsupply, harea, hreach, -⟩ := hok hne
  exact ⟨taken, hsupply, harea, hreach⟩

/-! ## In terms of the content -/

variable {e pos : Nat} {c c' : List NetBuf}

theorem length_area : (area c).length = (c.map NetBuf.room).sum := by
  induction c with
  | nil => rfl
  | cons b c ih => rw [area_cons, length_append, ih, NetBuf.length_mem, map_cons, sum_cons]

theorem bytes_of_full (h : ∀ b ∈ c, b.tailroom = 0) : bytes c = area c := by
  induction c with
  | nil => rfl
  | cons b c ih =>
    rw [bytes_cons, area_cons, ih fun x hx => h x (mem_cons_of_mem _ hx), NetBuf.mem,
      length_eq_zero_iff.1 (h b mem_cons_self), append_nil]

theorem NoHole.append (h : NoHole c e) (hempty : bytes c' = []) : NoHole (c ++ c') e := by
  induction c generalizing e with
  | nil => exact noHole_of_empty hempty e
  | cons b c ih =>
    exact ⟨fun htail (hne : bytes (c ++ c') ≠ []) =>
      h.1 htail (by rwa [bytes_append, hempty, append_nil] at hne), ih h.2⟩

/-- Up to a position of the content that no free space is before, memory and content are the same. -/
theorem NoHole.take_area (h : NoHole c e) (ho : o ≤ (bytes c).length) (hoe : o ≤ e) :
    (area c).take o = (bytes c).take o := by
  induction c generalizing o e with
  | nil => rfl
  | cons b c ih =>
    rw [bytes_cons, length_append, NetBuf.length_data] at ho
    by_cases hle : o ≤ b.len
    · rw [area_cons, bytes_cons, take_append_of_le_length (le_trans hle (by simp [NetBuf.room])),
        take_append_of_le_length hle, NetBuf.take_mem hle]
    · have hfull : b.tailroom = 0 := by
        by_contra htail
        have := h.1 htail (length_pos_iff.1 (by omega))
        omega
      have hmem : b.mem = b.data := by rw [NetBuf.mem, length_eq_zero_iff.1 hfull, append_nil]
      rw [area_cons, bytes_cons, hmem, take_append, take_append, NetBuf.length_data, ih h.2 (by omega) (by omega)]

/-- What is behind the position by size is behind it in the content. -/
theorem NoHole.drop_bytes (h : NoHole (c ++ b :: c') ((area c).length + pos)) (hpos : pos ≤ b.room) :
    (bytes (c ++ b :: c')).drop ((area c).length + pos) = b.data.drop pos ++ bytes c' := by
  have hroom : ∀ x : NetBuf, x.room = x.len + x.tailroom := fun _ => rfl
  induction c with
  | nil =>
    rw [nil_append, bytes_cons, area_nil, length_nil, zero_add, drop_append, NetBuf.length_data]
    by_cases hle : pos ≤ b.len
    · rw [Nat.sub_eq_zero_of_le hle, drop_zero]
    · have hnil : bytes c' = [] := by
        by_contra hne
        have := h.1 (by have := hroom b; omega) hne
        simp only [area_nil, length_nil] at this
        omega
      rw [hnil, drop_nil]
  | cons x c ih =>
    rw [area_cons, length_append, NetBuf.length_mem] at h ⊢
    have hx := hroom x
    rw [cons_append, bytes_cons, drop_append, NetBuf.length_data,
      drop_eq_nil_of_le (by rw [NetBuf.length_data]; omega), nil_append]
    by_cases hfull : x.tailroom = 0
    · have hrest := h.2
      rw [show x.room + (area c).length + pos - x.len = (area c).length + pos by omega] at hrest ⊢
      exact ih hrest
    · have hnil : bytes (c ++ b :: c') = [] := by
        by_contra hne
        have := h.1 hfull hne
        omega
      rw [hnil, drop_nil]
      rw [bytes_append, bytes_cons, append_eq_nil_iff, append_eq_nil_iff] at hnil
      rw [hnil.2.1, hnil.2.2, drop_nil]
      rfl

/-- When the write does not reach over a buffer that has free space and data behind it, the new content is the old
one with `d` in place of what is at `o`, and the cursor is behind `d`. -/
theorem netPktWrite_content (hfresh : ∀ b ∈ supply, b.data = []) (ho : o ≤ (bytes frags).length)
    (hhole : NoHole frags (o + d.length)) :
    ∃ r, netPktWrite supply frags o d = some r ∧
      (r.frag ≠ [] → bytes r.frags = overwrite (bytes frags) o d ∧
        Denotes NetBuf.data r.frags r.frag r.pos (o + d.length)) := by
  obtain ⟨r, hr, hok⟩ : FillsIn supply frags o d _ := netPktWrite_fills
  refine ⟨r, hr, fun hne => ?_⟩
  obtain ⟨taken, hsupply, harea, ⟨hpos, hfull, b, b₀, hfrag, hb₀, hlen⟩, hrooms⟩ := hok hne
  have hnew : bytes taken = [] := by
    refine flatMap_eq_nil_iff.2 fun x hx => hfresh x ?_
    rw [hsupply]
    exact mem_append_left _ hx
  have hsame : bytes frags = bytes (frags ++ taken) := by rw [bytes_append, hnew, append_nil]
  replace hhole := hhole.append hnew
  rw [hsame] at ho ⊢
  generalize frags ++ taken = all at *
  have hfront := hhole.take_area ho (le_add_right _ _)
  have hstart : ((area all).take o ++ d).length = o + d.length := by
    rw [hfront, length_append, length_take, min_eq_left ho]
  -- the buffers before the cursor, the one it is in, and those behind
  obtain ⟨front, back, rfl, hm⟩ : ∃ front back, all = front ++ b₀ :: back ∧ front.length = r.passed.length := by
    obtain ⟨hm, rfl⟩ := List.getElem?_eq_some_iff.1 hb₀
    exact ⟨_, _, by rw [← drop_eq_getElem_cons hm, take_append_drop], length_take_of_le (le_of_lt hm)⟩
  rw [← hm, drop_length_add_append, drop_one, tail_cons] at hfrag
  change (r.passed ++ r.frag).map NetBuf.room = _ at hrooms
  rw [hfrag, map_append, map_append] at hrooms
  obtain ⟨hbefore, hhere⟩ := append_inj hrooms (by rw [length_map, length_map, hm])
  have hroom : b.len + b.tailroom = b₀.room := (List.cons.inj hhere).1
  have he : o + d.length = (area front).length + r.pos := by rw [← hpos, length_area, length_area, hbefore]
  have hpassed := bytes_of_full hfull
  refine ⟨?_, r.passed, rfl, by change (bytes r.passed).length + _ = _; rw [hpassed, hpos]⟩
  change bytes (r.passed ++ r.frag) = _
  change area (r.passed ++ r.frag) = _ at harea
  rw [hfrag, area_append, area_cons] at harea
  have hdata : area r.passed ++ b.data = (area (front ++ b₀ :: back)).take o ++ d ++ b₀.data.drop r.pos := calc
    _ = (area r.passed ++ (b.mem ++ area back)).take ((area r.passed).length + b.len) := by
      rw [take_length_add_append, take_append_of_le_length
        (by rw [NetBuf.length_mem]; exact le_add_right _ _), ← b.data_eq]
    _ = (area (front ++ b₀ :: back)).take o ++ d ++
        ((area (front ++ b₀ :: back)).drop (o + d.length)).take (b₀.len - r.pos) := by
      rw [harea, overwrite, ← take_length_add_append, hstart]
      congr 1
      omega
    _ = _ := by
      congr 1
      rw [he, area_append, area_cons, drop_length_add_append,
        drop_append_of_le_length (by rw [NetBuf.length_mem]; omega),
        take_append_of_le_length
          (by rw [length_drop, NetBuf.length_mem]; exact Nat.sub_le_sub_right (le_add_right _ _) _),
        ← drop_take, ← b₀.data_eq]
  rw [he] at hhole
  rw [hfrag, bytes_append, bytes_cons, hpassed, ← append_assoc, hdata, overwrite, ← hfront, he,
    hhole.drop_bytes (by omega), append_assoc]

end

/-- **`net_pkt_write` overwrites by size** (net_pkt.c:1478-1544, net_pkt.h:1491-1507). For every packet, offset and
data: if it succeeds, the memory of the buffers, with those that were added, has `d` at `o` and is the same
elsewhere; what is before the cursor is in use to the last byte; the cursor is behind `d`. In terms of the content,
this is an overwrite as long as no free space is passed that has data behind it. -/
theorem netPktWrite_overwrites (supply frags : List NetBuf) (o : Nat) (d : List UInt8) :
    Fills supply frags o d (netPktWrite supply frags o d) ∧
    ((∀ b ∈ supply, b.data = []) → o ≤ (bytes frags).length → NoHole frags (o + d.length) →
      ∃ r, netPktWrite supply frags o d = some r ∧ (r.frag ≠ [] → bytes r.frags = overwrite (bytes frags) o d ∧
          Denotes NetBuf.data r.frags r.frag r.pos (o + d.length))) :=
  ⟨netPktWrite_fills.fills, netPktWrite_content⟩

/-- Three bytes over the end of the second buffer, where a third one is new. -/
theorem netPktWrite_overwrites_newBuffer :
    ∃ r, netPktWrite [⟨[], [0, 0]⟩] [⟨[1, 2], []⟩, ⟨[3], [9]⟩] 2 [4, 5, 6] = some r ∧ r.frag ≠ [] ∧
      bytes r.frags = overwrite (bytes [⟨[1, 2], []⟩, ⟨[3], [9]⟩]) 2 [4, 5, 6] ∧
      Denotes NetBuf.data r.frags r.frag r.pos 5 := by
  obtain ⟨r, hr, hok⟩ := (netPktWrite_overwrites [⟨[], [0, 0]⟩] [⟨[1, 2], []⟩, ⟨[3], [9]⟩] 2 [4, 5, 6]).2
    (by decide) (by decide) (by decide)
  have hne : (netPktWrite [⟨[], [0, 0]⟩] [⟨[1, 2], []⟩, ⟨[3], [9]⟩] 2 [4, 5, 6]).map (·.frag) = some [⟨[6], [0]⟩] := by
    decide
  rw [hr] at hne
  have hfrag : r.frag = [⟨[6], [0]⟩] := Option.some.inj hne
  exact ⟨r, hr, by rw [hfrag]; decide, hok (by rw [hfrag]; decide)⟩

/-- **A partly filled buffer is filled up** (net_pkt.c:1496-1513). The content is `1, 2, 3, 4` in two buffers of
four bytes each, and `7, 8, 9` are written over `2, 3, 4`. They all go to the first buffer: `3, 4` stay behind
them. And when the offset is in the second buffer, the rest of the first becomes part of the content, with whatever
there is in it (:1445-1463). -/
theorem partly_filled_inserts :
    overwrite (bytes [⟨[1, 2], [0, 0]⟩, ⟨[3, 4], [0, 0]⟩]) 1 [7, 8, 9] = [1, 7, 8, 9] ∧
    (netPktWrite [] [⟨[1, 2], [0, 0]⟩, ⟨[3, 4], [0, 0]⟩] 1 [7, 8, 9]).map
    (fun r => (bytes r.frags, r.frag.length, r.pos)) = some ([1, 7, 8, 9, 3, 4], 2, 4) ∧
    overwrite (bytes [⟨[1, 2], [0xee, 0xee]⟩, ⟨[3, 4], [0, 0]⟩]) 3 [9] = [1, 2, 3, 9] ∧
    (netPktWrite [] [⟨[1, 2], [0xee, 0xee]⟩, ⟨[3, 4], [0, 0]⟩] 3 [9]).map
    (fun r => (bytes r.frags, r.frag.length, r.pos)) = some ([1, 2, 0xee, 9, 3, 4], 2, 4) := by
  decide

end Zephyr
