import Zephyr.Lib.Chunks
/-!
# Network buffers (include/net/buf.h, subsys/net/buf.c)

A packet is a chain of buffers, which is a list here: no buffer is in two chains. Of a buffer there is the memory
from `data` to its end. What is behind the bytes in use is left from earlier uses, and a careless reader can see it.

Lengths and offsets are `u16_t`. None of them wraps: sums stay below the size of a buffer, and only what has been
compared is subtracted.
-/
namespace Zephyr

open List

structure NetBuf where
  data : List UInt8
  spare : List UInt8
deriving DecidableEq

namespace NetBuf

section

variable (b : NetBuf)

def len : Nat := b.data.length

def tailroom : Nat := b.spare.length

def room : Nat := b.len + b.tailroom

def mem : List UInt8 := b.data ++ b.spare

/-- `none` is outside of the buffer. -/
def at? (offset : Nat) : Option UInt8 := b.mem[offset]?

/-- `none` is the assertion. -/
def add (n : Nat) : Option NetBuf :=
  if n ≤ b.tailroom then some ⟨b.data ++ b.spare.take n, b.spare.drop n⟩ else none

def shrink (n : Nat) : NetBuf := ⟨b.data.take n, b.data.drop n ++ b.spare⟩

/-- `none` is outside of the buffer. -/
def put (offset : Nat) (d : List UInt8) : Option NetBuf :=
  if offset + d.length ≤ b.room then
    let m := b.mem.take offset ++ d ++ b.mem.drop (offset + d.length)
    some ⟨m.take b.len, m.drop b.len⟩
  else none

/-- `none` is outside of the buffer. -/
def memmove (dest src n : Nat) : Option NetBuf :=
  if src + n ≤ b.room then b.put dest ((b.mem.drop src).take n) else none

/-- `k` bytes are moved down by `n`, and the buffer is `n` bytes shorter. -/
def close (offset n k : Nat) : Option NetBuf := (b.memmove offset (offset + n) k).map (·.shrink (b.len - n))

/-- `d` is copied to where `net_buf_add` makes room. -/
def append (d : List UInt8) : Option NetBuf := (b.put b.len d).bind (·.add d.length)

end

variable {b : NetBuf} {o n : Nat} {d : List UInt8}

@[simp] theorem length_data : b.data.length = b.len := rfl

@[simp] theorem length_spare : b.spare.length = b.tailroom := rfl

@[simp] theorem length_mem : b.mem.length = b.room := length_append

theorem take_mem (h : n ≤ b.len) : b.mem.take n = b.data.take n := take_append_of_le_length h

theorem put_spec (h : o + d.length ≤ b.room) :
    ∃ b', b.put o d = some b' ∧ b'.mem = b.mem.take o ++ d ++ b.mem.drop (o + d.length) ∧ b'.len = b.len ∧
    b'.room = b.room := by
  have hlen : b.len ≤ b.room := Nat.le_add_right _ _
  generalize hm : b.mem.take o ++ d ++ b.mem.drop (o + d.length) = m
  have hlength : m.length = b.room := by
    rw [← hm, length_append, length_append, length_take, length_drop, length_mem]
    omega
  refine ⟨⟨m.take b.len, m.drop b.len⟩, by rw [put, if_pos h, hm], take_append_drop _ _, ?_, ?_⟩
  · change (m.take b.len).length = b.len
    rw [length_take, hlength, Nat.min_eq_left hlen]
  · rw [← length_mem, mem, take_append_drop, hlength]

theorem data_eq (b : NetBuf) : b.data = b.mem.take b.len := by rw [take_mem (Nat.le_refl _), ← length_data, take_length]

theorem add_spec (h : n ≤ b.tailroom) : ∃ b', b.add n = some b' ∧ b'.mem = b.mem ∧ b'.len = b.len + n := by
  refine ⟨⟨b.data ++ b.spare.take n, b.spare.drop n⟩, by rw [add, if_pos h], ?_, ?_⟩
  · rw [mem, append_assoc, take_append_drop, mem]
  · change (b.data ++ b.spare.take n).length = _
    rw [length_append, length_take, length_spare, Nat.min_eq_left h, length_data]

theorem append_spec (h : d.length ≤ b.tailroom) :
    ∃ b', b.append d = some b' ∧ b'.data = b.data ++ d ∧ b'.room = b.room := by
  obtain ⟨b₁, hput, hmem, hlen, hroom⟩ := put_spec (b := b) (o := b.len) (d := d) (Nat.add_le_add_left h _)
  have htail : d.length ≤ b₁.tailroom := by
    rw [room, room, hlen] at hroom
    omega
  obtain ⟨b', hadd, hmem', hlen'⟩ := add_spec htail
  refine ⟨b', by rw [append, hput, Option.bind_some, hadd], ?_, ?_⟩
  · have hfront : (b.data ++ d).length = b₁.len + d.length := by rw [length_append, length_data, hlen]
    rw [data_eq b', hmem', hlen', hmem, ← data_eq b, ← hfront, take_left]
  · rw [← hroom, ← length_mem, ← length_mem, hmem']

@[simp] theorem room_shrink : (b.shrink n).room = b.room := by
  simp only [shrink, room, len, tailroom, length_take, length_append, length_drop]
  omega

theorem slice_mem {k : Nat} (h : o + k ≤ b.len) : (b.mem.drop o).take k = (b.data.drop o).take k := by
  rw [mem, drop_append_of_le_length (by rw [length_data]; omega),
    take_append_of_le_length (by rw [length_drop, length_data]; omega)]

theorem close_data {k : Nat} (h : o + n + k ≤ b.len) :
    ∃ b', b.close o n k = some b' ∧ b'.room = b.room ∧
      b'.data = b.data.take o ++ (b.data.drop (o + n)).take k ++ (b.data.drop (o + k)).take (b.len - n - o - k) := by
  have hroom : b.len ≤ b.room := Nat.le_add_right _ _
  have hlength : ((b.data.drop (o + n)).take k).length = k := by
    rw [length_take, length_drop, length_data]
    omega
  obtain ⟨b', hb', hmem, hlen, hroom'⟩ := put_spec (b := b) (o := o) (d := (b.data.drop (o + n)).take k) (by omega)
  refine ⟨b'.shrink (b.len - n), ?_, by rw [room_shrink, hroom'], ?_⟩
  · rw [close, memmove, if_pos (by omega), slice_mem h, hb']
    rfl
  · change b'.data.take (b.len - n) = _
    have hfront : (b.mem.take o ++ (b.data.drop (o + n)).take k).length = o + k := by
      rw [length_append, length_take, hlength, length_mem]
      omega
    rw [← take_mem (by omega), hmem, take_append, hfront, hlength, take_of_length_le (by omega),
      take_mem (by omega), ← Nat.sub_sub,
      slice_mem (by omega)]

theorem close_spec (h : o + n ≤ b.len) :
    ∃ b', b.close o n (b.len - o - n) = some b' ∧ b'.data = b.data.take o ++ b.data.drop (o + n) ∧
    b'.room = b.room := by
  obtain ⟨b', hb', hroom, hdata⟩ := close_data (show o + n + (b.len - o - n) ≤ b.len by omega)
  refine ⟨b', hb', ?_, hroom⟩
  have hnone : b.len - n - o - (b.len - o - n) = 0 := by omega
  rw [hdata, hnone, take_zero, append_nil, take_of_length_le (l := b.data.drop _)
    (by rw [length_drop, length_data]; omega)]

end NetBuf

def bytes (c : List NetBuf) : List UInt8 := Chunks.content NetBuf.data c

/-- The memory of the chain, with what is not in use. -/
def area (c : List NetBuf) : List UInt8 := Chunks.content NetBuf.mem c

section

variable {b : NetBuf} {c d : List NetBuf}

@[simp] theorem area_nil : area [] = [] := rfl

@[simp] theorem area_cons : area (b :: c) = b.mem ++ area c := rfl

@[simp] theorem area_append : area (c ++ d) = area c ++ area d := Chunks.content_append c d

@[simp] theorem bytes_nil : bytes [] = [] := rfl

@[simp] theorem bytes_cons : bytes (b :: c) = b.data ++ bytes c := rfl

@[simp] theorem bytes_append : bytes (c ++ d) = bytes c ++ bytes d := Chunks.content_append c d

/-- Where a packet is entered: the buffers passed end at `o` or before, and the next one has a byte there. -/
theorem walk_offset (c : List NetBuf) (o : Nat) :
    ∃ passed rest p, Chunks.walk NetBuf.data (fun o l => o < l) c o = (passed, rest, p) ∧
    c = passed ++ rest ∧ (bytes passed).length + p = o ∧ ∀ b ∈ rest.head?, p < b.len := by
  generalize hwalk : Chunks.walk NetBuf.data (fun o l => decide (o < l)) c o = w
  obtain ⟨passed, rest, p⟩ := w
  obtain ⟨hc, hp, hhead⟩ := Chunks.walk_spec (fun o l h => by simpa using h) hwalk
  exact ⟨passed, rest, p, rfl, hc, hp, fun b hb => of_decide_eq_true (hhead b hb)⟩

end

end Zephyr
