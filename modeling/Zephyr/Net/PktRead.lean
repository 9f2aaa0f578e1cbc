import Mathlib.Data.List.GetD
import Zephyr.Net.Buf
/-!
# Reading a packet (subsys/net/ip/net_pkt.c:1279-1380)

`adjust_offset` passes over empty buffers, but the move to the next buffer behind the last byte of one does not
(`empty_reads_junk`).
-/
namespace Zephyr

open Chunks List

def adjustOffset (frag : List NetBuf) (offset : Nat) : List NetBuf × Nat :=
    (walk NetBuf.data (fun o l => o < l) frag offset).2

def netFragReadByte (b : NetBuf) (frags : List NetBuf) (offset : Nat) : List NetBuf × Nat :=
  if b.len ≤ offset + 1 then (frags, 0) else (b :: frags, offset + 1)

structure ReadResult where
  frag : List NetBuf
  pos : Nat
  data : List UInt8
deriving DecidableEq

def readLoop (data : Bool) : Nat → List NetBuf → Nat → List UInt8 → Option ReadResult
  | 0, frag, pos, out => some ⟨frag, pos, out⟩
  | _ + 1, [], pos, out => some ⟨[], pos, out⟩
  | len + 1, b :: frags, pos, out => do
    let out ← if data then (b.at? pos).map (out ++ [·]) else some out
    let (frag, pos) := netFragReadByte b frags pos
    if frag.isEmpty ∧ len ≠ 0 then some ⟨[], 0xffff, out⟩ else readLoop data len frag pos out

def netFragRead (frag : List NetBuf) (offset len : Nat) (data : Bool) : Option ReadResult :=
  match adjustOffset frag offset with
  | ([], _) => some ⟨[], 0xffff, []⟩
  | (frag, pos) => readLoop data len frag pos []

def netFragSkip (frag : List NetBuf) (offset len : Nat) : Option ReadResult := netFragRead frag offset len false

def be16 (v : List UInt8) : UInt16 := (v.getD 0 0).toUInt16 <<< 8 ||| (v.getD 1 0).toUInt16

def be32 (v : List UInt8) : UInt32 :=
  (v.getD 0 0).toUInt32 <<< 24 ||| (v.getD 1 0).toUInt32 <<< 16 ||| (v.getD 2 0).toUInt32 <<<
  8 ||| (v.getD 3 0).toUInt32

/-- `sys_cpu_to_be16`, as bytes. -/
def htons (n : Nat) : List UInt8 := [UInt8.ofNat (n / 256), UInt8.ofNat n]

def netFragReadBe16 (junk : List UInt8) (frag : List NetBuf) (offset : Nat) : Option (ReadResult × UInt16) :=
  (netFragRead frag offset 2 true).map fun r => (r, be16 (r.data ++ junk.drop r.data.length))

def netFragReadBe32 (junk : List UInt8) (frag : List NetBuf) (offset : Nat) : Option (ReadResult × UInt32) :=
  (netFragRead frag offset 4 true).map fun r => (r, be32 (r.data ++ junk.drop r.data.length))

variable {n pos o p : Nat} {c rest : List NetBuf}

theorem be16_htons (h : n < 2 ^ 16) : (be16 (htons n)).toNat = n := by
  have hlow : n % 2 ^ 8 < 2 ^ 8 := Nat.mod_lt _ (by decide)
  have hhigh : n / 256 % 2 ^ 8 = n / 256 := Nat.mod_eq_of_lt (by omega)
  have hor : 2 ^ 8 * (n / 256) ||| n % 2 ^ 8 = 2 ^ 8 * (n / 256) + n % 2 ^ 8 :=
    (Nat.two_pow_add_eq_or_of_lt hlow _).symm
  have hshift : n / 256 * 2 ^ (UInt16.toNat 8 % 16) % 2 ^ 16 = 2 ^ 8 * (n / 256) := by
    change n / 256 * 2 ^ 8 % 2 ^ 16 = _
    omega
  simp only [be16, htons, getD_cons_zero, getD_cons_succ, UInt16.toNat_or, UInt16.toNat_shiftLeft, UInt8.toNat_toUInt16,
    UInt8.toNat_ofNat', hhigh]
  rw [Nat.shiftLeft_eq, hshift, hor]
  omega

/-! ## What is to hold -/

/-- No empty buffer is behind one with data. -/
def NoGaps (c : List NetBuf) : Prop := c.Pairwise fun a b => b.data = [] → a.data = []

instance (c : List NetBuf) : Decidable (NoGaps c) := inferInstanceAs (Decidable (List.Pairwise _ c))

/-- Where the empty buffers stand in the content. -/
def emptiesAt : List NetBuf → List Nat
  | [] => []
  | b :: c => (if b.data = [] then [0] else []) ++ (emptiesAt c).map (b.len + ·)

/-- To read `n` bytes from `o` on is not to read nothing behind the end; and it ends before the first empty buffer
behind `o`, or goes further beyond the end than by one byte for each of them. These bytes are there to be read if
`data` is not `NULL`. -/
def readFits (data : Bool) (c : List NetBuf) (o n : Nat) : Bool :=
  match adjustOffset c o with
  | ([], _) => n ≠ 0
  | (b :: fs, p) => (emptiesAt fs).all (fun q => n ≤ b.len - p + q) ||
      b.len - p + (bytes fs).length + (emptiesAt fs).length < n && (!data || fs.all fun x => x.room ≠ 0)

/-- Reading `n` bytes at `o` is reading the linear content: it fails iff there are not so many; the bytes are those
of the content; the cursor stands behind them, and to read on from there is to read the whole chain from there. -/
structure ReadsLinear (c : List NetBuf) (o n : Nat) (data : Bool) (r : ReadResult) : Prop where
  fails : r.frag = [] ∧ r.pos = 0xffff ↔ 1 ≤ n ∧ (bytes c).length < o + n
  data : o + n ≤ (bytes c).length → data = true → r.data = ((bytes c).drop o).take n
  cursor : o + n ≤ (bytes c).length → Denotes NetBuf.data c r.frag r.pos (o + n)
  chains : o + n ≤ (bytes c).length → ∀ m data, netFragRead r.frag r.pos m data = netFragRead c (o + n) m data

/-! ## The loop -/

theorem at?_of_lt {b : NetBuf} (hpos : pos < b.len) : b.at? pos = some (b.data.get ⟨pos, hpos⟩) := by
  rw [NetBuf.at?, NetBuf.mem, List.getElem?_append_left hpos, get_eq_getElem, List.getElem?_eq_getElem]

theorem bytes_drop {b : NetBuf} (fs : List NetBuf) (hpos : pos < b.len) :
    (bytes (b :: fs)).drop pos = b.data.get ⟨pos, hpos⟩ :: (bytes (b :: fs)).drop (pos + 1) := by
  have hlen : pos < (bytes (b :: fs)).length := by
    rw [bytes_cons, length_append]
    exact Nat.lt_add_right _ hpos
  rw [drop_eq_getElem_cons hlen, get_eq_getElem]
  congr 1
  simp only [bytes_cons]
  rw [getElem_append_left]

/-- In a buffer and not behind its end, at the start of an empty one, or at `NULL`. -/
def Stands (frag : List NetBuf) (pos : Nat) : Prop := (frag = [] → pos = 0) ∧ ∀ b ∈ frag.head?, pos < max 1 b.len

theorem Stands.cons {b : NetBuf} {fs : List NetBuf} (hpos : pos < b.len) : Stands (b :: fs) pos := by
  refine ⟨nofun, ?_⟩
  rintro _ ⟨⟩
  omega

variable {data : Bool} {b : NetBuf} {fs frag : List NetBuf}

theorem mem_emptiesAt_cons {q : Nat} :
    q ∈ emptiesAt (b :: fs) ↔ b.data = [] ∧ q = 0 ∨ ∃ q' ∈ emptiesAt fs, b.len + q' = q := by
  by_cases hb : b.data = [] <;> simp [emptiesAt, hb]

theorem le_of_mem_emptiesAt {q : Nat} (h : q ∈ emptiesAt fs) : q ≤ (bytes fs).length := by
  induction fs generalizing q with
  | nil => cases h
  | cons b fs ih =>
    rw [bytes_cons, length_append, NetBuf.length_data]
    obtain ⟨-, rfl⟩ | ⟨q', hq', rfl⟩ := mem_emptiesAt_cons.1 h
    · exact Nat.zero_le _
    · exact Nat.add_le_add_left (ih hq') _

theorem emptiesAt_append (l r : List NetBuf) :
    emptiesAt (l ++ r) = emptiesAt l ++ (emptiesAt r).map ((bytes l).length + ·) := by
  induction l with
  | nil => simp [emptiesAt]
  | cons b l ih => simp [emptiesAt, ih, bytes_cons, NetBuf.length_data, Nat.add_assoc, Function.comp_def]

theorem emptiesAt_eq_nil : emptiesAt fs = [] ↔ ∀ b ∈ fs, b.data ≠ [] := by
  induction fs with
  | nil => simp [emptiesAt]
  | cons b fs ih => simp [emptiesAt, ih]

/-- The bytes of a chain and one for each empty buffer: as many does the loop take. -/
def steps (c : List NetBuf) : Nat := (bytes c).length + (emptiesAt c).length

theorem steps_cons : steps (b :: fs) = max 1 b.len + steps fs := by
  by_cases hb : b.data = []
  · have hlen : b.len = 0 := length_eq_zero_iff.2 hb
    simp only [steps, emptiesAt, bytes_cons, hb, hlen, if_true, length_append, length_map, length_nil, length_singleton]
    omega
  · have hlen : 0 < b.len := length_pos_iff.2 hb
    simp only [steps, emptiesAt, bytes_cons, hb, if_false, length_append, length_map, length_nil, NetBuf.length_data]
    omega

/-- One byte further on, or at the start of the next buffer. -/
theorem netFragReadByte_cases (fs : List NetBuf) (hpos : pos < max 1 b.len) :
    ∃ frag p, netFragReadByte b fs pos = (frag, p) ∧ Stands frag p ∧
    steps frag + (pos + 1) = steps (b :: fs) + p ∧
    (frag = fs ∧ p = 0 ∧ max 1 b.len = pos + 1 ∨ frag = b :: fs ∧ p = pos + 1 ∧ pos + 1 < b.len) := by
  rw [steps_cons]
  by_cases hend : b.len ≤ pos + 1
  · exact ⟨fs, 0, if_pos hend, ⟨fun _ => rfl, fun x _ => by omega⟩, by omega, .inl ⟨rfl, rfl, by omega⟩⟩
  · exact ⟨b :: fs, pos + 1, if_neg hend, .cons (Nat.lt_of_not_le hend), by rw [steps_cons, Nat.add_comm],
      .inr ⟨rfl, rfl, Nat.lt_of_not_le hend⟩⟩

/-- One round of the loop. -/
theorem readLoop_round (out : List UInt8) (hnext : netFragReadByte b fs pos = (frag, p)) :
    readLoop data (n + 1) (b :: fs) pos out =
    (if data then (b.at? pos).map (out ++ [·]) else some out).bind fun out =>
      if frag.isEmpty ∧ n ≠ 0 then some ⟨[], 0xffff, out⟩ else readLoop data n frag p out := by
  cases data <;> simp [readLoop, hnext]

/-- **The loop of `net_frag_read`** up to the first empty buffer. The induction is on the bytes still to be read. -/
theorem readLoop_clear (data : Bool) (n : Nat) :
    ∀ {frag : List NetBuf} {pos : Nat} (out : List UInt8), Stands frag pos →
    (∀ q ∈ emptiesAt frag, pos + n ≤ q) → pos + n ≤ (bytes frag).length → ∃ r, readLoop data n frag pos out = some r ∧
      r.data = out ++ (if data then ((bytes frag).drop pos).take n else []) ∧
      Denotes NetBuf.data frag r.frag r.pos (pos + n) ∧
      Stands r.frag r.pos := by
  induction n with
  | zero => exact fun out hin _ _ => ⟨⟨_, _, out⟩, rfl, by simp, Denotes.start _ _, hin⟩
  | succ n ih =>
    intro frag pos out hin hclear hle
    obtain ⟨b, fs, rfl⟩ := exists_cons_of_ne_nil (l := frag) (by rintro rfl; simp at hle)
    have hb : b.data ≠ [] := fun h => absurd (hclear 0 (mem_emptiesAt_cons.2 (.inl ⟨h, rfl⟩))) (by omega)
    have hpos : pos < b.len := by
      have hpos := hin.2 b rfl
      have hlen : 0 < b.len := length_pos_iff.2 hb
      omega
    obtain ⟨frag, p, hnext, hin', -, hplace⟩ := netFragReadByte_cases fs (hin.2 b rfl)
    have hbehind : Denotes NetBuf.data (b :: fs) frag p (pos + 1) ∧ ∀ q ∈ emptiesAt frag, p + n ≤ q := by
      rcases hplace with ⟨rfl, rfl, hend⟩ | ⟨rfl, rfl, -⟩
      · refine ⟨?_, fun q hq => ?_⟩
        · rw [show pos + 1 = b.data.length by rw [NetBuf.length_data]; omega]
          exact (Denotes.start _ _).next
        · have := hclear _ (mem_emptiesAt_cons.2 (.inr ⟨q, hq, rfl⟩))
          omega
      · exact ⟨Denotes.start _ _, fun q hq => by have := hclear q hq; omega⟩
    obtain ⟨hden, hclear'⟩ := hbehind
    have hlen : (bytes frag).length + (pos + 1) = (bytes (b :: fs)).length + p := hden.length
    have hout : (if data then (b.at? pos).map (out ++ [·]) else some out) =
        some (out ++ if data then [b.data.get ⟨pos, hpos⟩] else []) := by
      cases data <;> simp [at?_of_lt hpos]
    have hgo : ¬ (frag.isEmpty ∧ n ≠ 0) := by
      rintro ⟨hnil, hn⟩
      obtain rfl := isEmpty_iff.1 hnil
      rw [hin'.1 rfl, bytes_nil, length_nil] at hlen
      omega
    rw [readLoop_round out hnext, hout, Option.bind_some, if_neg hgo]
    obtain ⟨r, hr, hdata, hat, hin⟩ := ih _ hin' hclear' (by omega)
    refine ⟨r, hr, ?_, ?_, hin⟩
    · rw [hdata, show (bytes frag).drop p = _ from hden.drop, bytes_drop fs hpos]
      cases data <;> simp [bytes]
    · rw [show pos + (n + 1) = pos + 1 + n by omega]
      exact hden.trans hat

theorem at?_isSome : (b.at? pos).isSome ↔ pos < b.room := by
  rw [NetBuf.at?, isSome_getElem?, NetBuf.length_mem]

/-- Where the loop does not come to the end, an empty buffer is taken for one more byte. -/
theorem readLoop_near (n : Nat) :
    ∀ {frag : List NetBuf} {pos : Nat} {out : List UInt8} {r : ReadResult}, Stands frag pos → pos + n ≤ steps frag →
    readLoop data n frag pos out = some r → Stands r.frag r.pos ∧ steps r.frag + (pos + n) = steps frag + r.pos ∧
    (bytes frag).length + r.pos ≤ (bytes r.frag).length + (pos + n) ∧
      ∀ q ∈ emptiesAt frag, q < pos + n → (bytes frag).length + r.pos < (bytes r.frag).length + (pos + n) := by
  induction n with
  | zero =>
    intro frag pos out r hin _ h
    cases h
    refine ⟨hin, rfl, Nat.le_refl _, fun q hq hlt => ?_⟩
    obtain ⟨b, fs, rfl⟩ := exists_cons_of_ne_nil (l := frag) (by rintro rfl; cases hq)
    have hpos := hin.2 b rfl
    rcases mem_emptiesAt_cons.1 hq with ⟨hb, rfl⟩ | ⟨q', -, rfl⟩
    · rw [show b.len = 0 from length_eq_zero_iff.2 hb] at hpos
      omega
    · omega
  | succ n ih =>
    intro frag pos out r hin hle h
    obtain ⟨b, fs, rfl⟩ := exists_cons_of_ne_nil (l := frag)
      (by rintro rfl; exact absurd hle (by simp [steps, emptiesAt]))
    obtain ⟨frag, p, hnext, hin', hsteps, hplace⟩ := netFragReadByte_cases fs (hin.2 b rfl)
    rw [readLoop_round out hnext] at h
    obtain ⟨out', -, h⟩ := Option.bind_eq_some_iff.1 h
    have hgo : ¬ (frag.isEmpty ∧ n ≠ 0) := by
      rintro ⟨hnil, hn⟩
      obtain rfl := isEmpty_iff.1 hnil
      have : steps [] = 0 := rfl
      rw [hin'.1 rfl] at hsteps
      omega
    rw [if_neg hgo] at h
    obtain ⟨hstands, hall, hlen, hstrict⟩ := ih hin' (by omega) h
    rcases hplace with ⟨rfl, rfl, hend⟩ | ⟨rfl, rfl, -⟩
    · rw [bytes_cons, length_append, NetBuf.length_data]
      refine ⟨hstands, by omega, by omega, fun q hq hlt => ?_⟩
      rcases mem_emptiesAt_cons.1 hq with ⟨hb, rfl⟩ | ⟨q', hq', rfl⟩
      · rw [show b.len = 0 from length_eq_zero_iff.2 hb] at hend ⊢
        omega
      · by_cases hb : b.len = 0
        · omega
        · have := hstrict q' hq' (by omega)
          omega
    · exact ⟨hstands, by omega, by omega, fun q hq hlt => by have := hstrict q hq (by omega); omega⟩

/-- Where the loop comes to the end, all the empty buffers have been read. -/
theorem readLoop_far (n : Nat) :
    ∀ {frag : List NetBuf} {pos : Nat} (out : List UInt8), frag ≠ [] → Stands frag pos → steps frag < pos + n →
    ((∃ r, readLoop data n frag pos out = some r) ↔ (data = true → ∀ b ∈ frag, b.room ≠ 0)) ∧
      ∀ r, readLoop data n frag pos out = some r → r.frag = [] ∧ r.pos = 0xffff := by
  induction n with
  | zero =>
    intro frag pos out hne hin hlt
    obtain ⟨b, fs, rfl⟩ := exists_cons_of_ne_nil hne
    have := hin.2 b rfl
    rw [steps_cons] at hlt
    omega
  | succ n ih =>
    intro frag pos out hne hin hlt
    obtain ⟨b, fs, rfl⟩ := exists_cons_of_ne_nil hne
    obtain ⟨frag, p, hnext, hin', hsteps, hplace⟩ := netFragReadByte_cases fs (hin.2 b rfl)
    rw [readLoop_round out hnext]
    have hthere : pos < b.room ↔ b.room ≠ 0 := by
      have := hin.2 b rfl
      have : b.len ≤ b.room := Nat.le_add_right _ _
      omega
    by_cases hbyte : data = true ∧ b.room = 0
    · obtain ⟨rfl, hroom⟩ := hbyte
      have hnone : b.at? pos = none := by
        rw [← Option.not_isSome_iff_eq_none, at?_isSome, hthere]
        exact not_not_intro hroom
      simp only [hnone, if_true, Option.map_none, Option.bind_none]
      exact ⟨iff_of_false nofun fun h => h trivial b mem_cons_self hroom, nofun⟩
    · obtain ⟨out', hout⟩ : ∃ out', (if data then (b.at? pos).map (out ++ [·]) else some out) = some out' := by
        cases data with
        | false => exact ⟨out, rfl⟩
        | true =>
          obtain ⟨x, hx⟩ := Option.isSome_iff_exists.1 (at?_isSome.2 (hthere.2 fun h => hbyte ⟨rfl, h⟩))
          exact ⟨out ++ [x], by simp [hx]⟩
      have hroom : data = true → b.room ≠ 0 := fun h h0 => hbyte ⟨h, h0⟩
      rw [hout, Option.bind_some]
      by_cases hnil : frag = []
      · have hfs : fs = [] := by
          rcases hplace with ⟨rfl, -⟩ | ⟨rfl, -⟩
          · exact hnil
          · cases hnil
        have hn : n ≠ 0 := by
          have : steps [] = 0 := rfl
          rw [hnil, hin'.1 hnil] at hsteps
          omega
        rw [if_pos ⟨isEmpty_iff.2 hnil, hn⟩]
        exact ⟨iff_of_true ⟨_, rfl⟩ fun h => by rw [hfs]; exact forall_mem_singleton.2 (hroom h),
          fun r h => by cases h; exact ⟨rfl, rfl⟩⟩
      · rw [if_neg fun h => hnil (isEmpty_iff.1 h.1)]
        obtain ⟨hiff, hend⟩ := ih out' hnil hin' (by omega)
        refine ⟨hiff.trans (forall_congr' fun h => ?_), hend⟩
        rcases hplace with ⟨rfl, -⟩ | ⟨rfl, -⟩
        · rw [forall_mem_cons, and_iff_right (hroom h)]
        · exact Iff.rfl

/-! ## Reading -/

theorem adjustOffset_spec (c : List NetBuf) (o : Nat) :
    ∃ rest p, adjustOffset c o = (rest, p) ∧ Denotes NetBuf.data c rest p o ∧
    (bytes rest).length + o = (bytes c).length + p ∧ ∀ b ∈ rest.head?, p < b.len := by
  obtain ⟨passed, rest, p, hwalk, hc, hlen, hhead⟩ := walk_offset c o
  have hat : Denotes NetBuf.data c rest p o := ⟨passed, hc, hlen⟩
  exact ⟨rest, p, by rw [adjustOffset, hwalk], hat, hat.length, hhead⟩

theorem adjustOffset_of_denotes {k : Nat} (h : Denotes NetBuf.data c rest p k) :
    adjustOffset c k = adjustOffset rest p := by
  obtain ⟨passed, rfl, rfl⟩ := h
  exact walk_append (fun o l h => by simpa using h) passed rest p

/-- To read on from a position is to read the whole chain from there. -/
theorem netFragRead_of_denotes {k : Nat} (h : Denotes NetBuf.data c rest p k) (m : Nat) (data : Bool) :
    netFragRead rest p m data = netFragRead c k m data := by
  rw [netFragRead, netFragRead, adjustOffset_of_denotes h]

section

variable (hat : Denotes NetBuf.data c (b :: fs) p o) (hpos : p < b.len)

include hat hpos

/-- If there are as many bytes as are to be read, the cursor tells whether an empty buffer has been read. -/
theorem readLoop_within (hle : o + n ≤ (bytes c).length) :
    (∃ r, readLoop data n (b :: fs) p [] = some r ∧ ReadsLinear c o n data r) ↔
      ∀ q ∈ emptiesAt fs, n ≤ b.len - p + q := by
  have hlen : (bytes (b :: fs)).length + o = (bytes c).length + p := hat.length
  have hsteps : (bytes (b :: fs)).length ≤ steps (b :: fs) := Nat.le_add_right _ _
  constructor
  · rintro ⟨r, hr, hlin⟩ q hq
    have hcursor : (bytes r.frag).length + (o + n) = (bytes c).length + r.pos := (hlin.cursor hle).length
    by_contra hlt
    have hfew := (readLoop_near n (.cons hpos) (by omega) hr).2.2.2 (b.len + q)
      (mem_emptiesAt_cons.2 (.inr ⟨q, hq, rfl⟩)) (by omega)
    omega
  · intro hclear
    obtain ⟨r, hr, hdata, hread, hstands⟩ := readLoop_clear data n [] (.cons hpos) (fun q hq => by
      obtain ⟨hb, -⟩ | ⟨q', hq', rfl⟩ := mem_emptiesAt_cons.1 hq
      · exact absurd hb (length_pos_iff.1 (Nat.zero_lt_of_lt hpos))
      · have := hclear q' hq'
        omega) (by omega)
    have hden : Denotes NetBuf.data c r.frag r.pos (o + n) := hat.trans hread
    refine ⟨r, hr, ⟨fun h => ?_, fun h => by omega⟩, fun _ hd => ?_, fun _ => hden,
      fun _ => netFragRead_of_denotes hden⟩
    · rw [hstands.1 h.1] at h
      cases h.2
    · rw [hdata, if_pos hd, nil_append]
      exact congrArg (take n) hat.drop

/-- If there are fewer, the loop is to come to the end. -/
theorem readLoop_beyond (hlt : (bytes c).length < o + n) :
    (∃ r, readLoop data n (b :: fs) p [] = some r ∧ ReadsLinear c o n data r) ↔
      steps (b :: fs) < p + n ∧ (data = true → ∀ x ∈ b :: fs, x.room ≠ 0) := by
  have hlen : (bytes (b :: fs)).length + o = (bytes c).length + p := hat.length
  rw [bytes_cons, length_append, NetBuf.length_data] at hlen
  constructor
  · rintro ⟨r, hr, hlin⟩
    obtain ⟨hf, hp⟩ := hlin.fails.2 (by omega)
    have hfar : steps (b :: fs) < p + n := by
      by_contra hnear
      rw [(readLoop_near n (.cons hpos) (by omega) hr).1.1 hf] at hp
      cases hp
    exact ⟨hfar, (readLoop_far n [] (cons_ne_nil b fs) (.cons hpos) hfar).1.1 ⟨r, hr⟩⟩
  · rintro ⟨hfar, hrooms⟩
    obtain ⟨hiff, hend⟩ := @readLoop_far data n (b :: fs) p [] (cons_ne_nil b fs) (.cons hpos) hfar
    obtain ⟨r, hr⟩ := hiff.2 hrooms
    exact ⟨r, hr, iff_of_true (hend r hr) (by omega), by omega, by omega, by omega⟩

end

/-- **`net_frag_read` (net_pkt.c:1326)**: what is read is the linear content exactly if it `readFits`. -/
theorem netFragRead_linear (data : Bool) (c : List NetBuf) (o n : Nat) :
    (∃ r, netFragRead c o n data = some r ∧ ReadsLinear c o n data r) ↔ readFits data c o n = true := by
  obtain ⟨rest, p, hadjust, hat, hlen, hhead⟩ := adjustOffset_spec c o
  unfold netFragRead readFits
  rw [hadjust]
  cases rest with
  | nil =>
    have hB : (bytes c).length ≤ o := by
      rw [bytes_nil, length_nil] at hlen
      omega
    simp only [Option.some.injEq, exists_eq_left', decide_eq_true_eq]
    constructor
    · intro h
      exact Nat.one_le_iff_ne_zero.1 (h.fails.1 ⟨rfl, rfl⟩).1
    · intro hn
      exact ⟨iff_of_true ⟨rfl, rfl⟩ (by omega), fun _ => by omega, fun _ => by omega, fun _ => by omega⟩
  | cons b fs =>
    have hpos : p < b.len := hhead b rfl
    have hsteps : steps (b :: fs) = b.len + ((bytes fs).length + (emptiesAt fs).length) := by
      rw [steps_cons, steps, Nat.max_eq_right (by omega)]
    rw [bytes_cons, length_append, NetBuf.length_data] at hlen
    simp only [Bool.or_eq_true, Bool.and_eq_true, Bool.not_eq_true', decide_eq_true_eq, all_eq_true]
    by_cases hle : o + n ≤ (bytes c).length
    · rw [or_iff_left (by omega)]
      exact readLoop_within hat hpos hle
    · refine (readLoop_beyond hat hpos (Nat.lt_of_not_le hle)).trans ⟨?_, ?_⟩
      · rintro ⟨hfar, hrooms⟩
        refine .inr ⟨by omega, ?_⟩
        cases data with
        | false => exact .inl rfl
        | true => exact .inr fun x hx => hrooms rfl x (mem_cons_of_mem _ hx)
      · have hroom : ∀ x : NetBuf, x.data ≠ [] → x.room ≠ 0 :=
          fun x hx h => hx (length_eq_zero_iff.1 (Nat.eq_zero_of_add_eq_zero_right h))
        have hb : b.room ≠ 0 := hroom b (length_pos_iff.1 (Nat.zero_lt_of_lt hpos))
        rintro (hclear | ⟨hlt, hrooms⟩)
        · -- there is no empty buffer behind the cursor
          have hnone : emptiesAt fs = [] := eq_nil_iff_forall_not_mem.2 fun q hq => by
            have := hclear q hq
            have := le_of_mem_emptiesAt hq
            omega
          rw [hsteps, hnone, length_nil]
          exact ⟨by omega, fun _ => forall_mem_cons.2 ⟨hb, fun x hx => hroom x (emptiesAt_eq_nil.1 hnone x hx)⟩⟩
        · exact ⟨by omega, fun hd => forall_mem_cons.2 ⟨hb, hrooms.resolve_left (by rw [hd]; decide)⟩⟩

theorem nonempty_of_noGaps (hgaps : NoGaps c) (hat : Denotes NetBuf.data c (b :: fs) p o) (hpos : p < b.len) :
    ∀ x ∈ b :: fs, x.data ≠ [] := by
  have hb : b.data ≠ [] := length_pos_iff.1 (Nat.zero_lt_of_lt hpos)
  obtain ⟨passed, rfl, -⟩ := hat
  exact forall_mem_cons.2 ⟨hb, fun x hx hempty => hb (rel_of_pairwise_cons (pairwise_append.1 hgaps).2.1 hx hempty)⟩

theorem readFits_of_noGaps (data : Bool) (hgaps : NoGaps c) (hn : n ≠ 0 ∨ o < (bytes c).length) :
    readFits data c o n = true := by
  obtain ⟨rest, p, hadjust, hat, hlen, hhead⟩ := adjustOffset_spec c o
  rw [readFits, hadjust]
  cases rest with
  | nil =>
    rw [bytes_nil, length_nil] at hlen
    exact decide_eq_true (hn.resolve_right (by omega))
  | cons b fs =>
    have hnone := emptiesAt_eq_nil.2 fun x hx => nonempty_of_noGaps hgaps hat (hhead b rfl) x (mem_cons_of_mem _ hx)
    simp only [hnone, all_nil, Bool.true_or]

/-- The cursor stands before `rest` of the content. -/
def Before (c frag : List NetBuf) (pos : Nat) (rest : List UInt8) : Prop :=
  ∃ passed, Denotes NetBuf.data c frag pos passed.length ∧ bytes c = passed ++ rest

/-- No empty buffer is inside of the `n` bytes in front of the last `k`. -/
def Whole (c : List NetBuf) (n k : Nat) : Prop :=
  ∀ q ∈ emptiesAt c, q + (n + k) ≤ (bytes c).length ∨ (bytes c).length ≤ q + k

instance (c : List NetBuf) (n k : Nat) : Decidable (Whole c n k) := inferInstanceAs (Decidable (∀ q ∈ emptiesAt c, _))

theorem Whole.part {n' k' k : Nat} (h : Whole c n k) (hk : k ≤ k') (hn : n' + k' ≤ n + k) : Whole c n' k' :=
  fun q hq => (h q hq).imp (by omega) (by omega)

theorem whole_one (c : List NetBuf) (k : Nat) : Whole c 1 k := fun q _ => by omega

/-- There is something to come, if only an empty buffer. -/
def moreAt (c : List NetBuf) (rest : List UInt8) : Bool := rest ≠ [] ∨ (bytes c).length ∈ emptiesAt c

theorem moreAt_of_ne {rest : List UInt8} (h : rest ≠ []) : moreAt c rest = true := decide_eq_true (.inl h)

theorem moreAt_of_open (h : moreAt c [] = true) (rest : List UInt8) : moreAt c rest = true :=
  decide_eq_true (.inr ((of_decide_eq_true h).resolve_left fun hne => hne rfl))

/-- An empty buffer behind a position is one of the whole chain. -/
theorem emptiesAt_of_denotes {k q : Nat} (h : Denotes NetBuf.data c frag p k) (hq : q ∈ emptiesAt frag) :
    ∃ q' ∈ emptiesAt c, q' + p = k + q := by
  obtain ⟨front, rfl, hfront⟩ := h
  have hfront' : (bytes front).length + p = k := hfront
  refine ⟨(bytes front).length + q, ?_, by omega⟩
  rw [emptiesAt_append]
  exact mem_append_right _ (mem_map_of_mem hq)

/-- And one of the chain is behind the position, or not behind its offset. -/
theorem emptiesAt_behind {k q : Nat} (h : Denotes NetBuf.data c frag p k) (hq : q ∈ emptiesAt c) :
    q ≤ k ∨ ∃ q' ∈ emptiesAt frag, q + p = k + q' := by
  obtain ⟨front, rfl, hfront⟩ := h
  have hfront' : (bytes front).length + p = k := hfront
  rw [emptiesAt_append] at hq
  rcases mem_append.1 hq with hq | hq
  · exact .inl (by have := le_of_mem_emptiesAt hq; omega)
  · obtain ⟨q', hq', rfl⟩ := mem_map.1 hq
    exact .inr ⟨q', hq', by omega⟩

/-- **What is to be read is `d`**: the cursor is behind it then, and it is `NULL` and 0 if there is no more. -/
theorem netFragRead_before {frag : List NetBuf} {d rest : List UInt8} (data : Bool)
    (hwhole : Whole c d.length rest.length) (hat : Before c frag pos (d ++ rest)) (hd : d ++ rest ≠ []) :
    ∃ r, netFragRead frag pos d.length data = some r ∧ (data = true → r.data = d) ∧ Before c r.frag r.pos rest ∧
      ¬ (r.frag = [] ∧ r.pos = 0xffff) ∧ (r.frag = [] ∧ r.pos = 0 ↔ moreAt c rest = false) := by
  obtain ⟨passed, hden, hc⟩ := hat
  have hsome := length_pos_iff.2 hd
  have hlen : (bytes c).length = passed.length + d.length + rest.length := by simp [hc, Nat.add_assoc]
  rw [length_append] at hsome
  obtain ⟨left, p, hadjust, hstart, hleft, hhead⟩ := adjustOffset_spec c passed.length
  obtain ⟨b, fs, rfl⟩ := exists_cons_of_ne_nil (l := left) (by
    rintro rfl
    rw [bytes_nil, length_nil] at hleft
    omega)
  have hpos : p < b.len := hhead b rfl
  have hle : passed.length + d.length ≤ (bytes c).length := by omega
  obtain ⟨r, hr, hlin⟩ := (@readLoop_within d.length _ _ _ data _ _ hstart hpos hle).2 fun q hq => by
    -- an empty buffer behind the cursor is behind what is read
    obtain ⟨q', hq', heq⟩ := emptiesAt_of_denotes hstart (mem_emptiesAt_cons.2 (.inr ⟨q, hq, rfl⟩))
    have := hwhole q' hq'
    omega
  have hsteps : steps (b :: fs) = (bytes (b :: fs)).length + (emptiesAt (b :: fs)).length := rfl
  obtain ⟨hstands, hall, -⟩ := readLoop_near d.length (.cons hpos) (by omega) hr
  have hcursor := hlin.cursor hle
  have hfrag : (bytes r.frag).length + (passed.length + d.length) = (bytes c).length + r.pos := hcursor.length
  refine ⟨r, ?_, fun h => ?_, ⟨passed ++ d, ?_, ?_⟩, fun h => ?_, ?_⟩
  · rw [netFragRead_of_denotes hden, netFragRead, hadjust]
    exact hr
  · rw [hlin.data hle h, hc, drop_left, take_left]
  · rwa [length_append]
  · rw [hc, append_assoc]
  · have := hlin.fails.1 h
    omega
  · rw [moreAt, decide_eq_false_iff_not, not_or, not_not]
    constructor
    · rintro ⟨hf, hp⟩
      -- all the rounds there can be have been made, and no empty buffer was among them
      rw [hf, hp, show steps [] = 0 from rfl] at hall
      rw [hf, hp, bytes_nil, length_nil] at hfrag
      refine ⟨length_eq_zero_iff.1 (by omega), fun hopen => ?_⟩
      rcases emptiesAt_behind hstart hopen with hle | ⟨q', hq', -⟩
      · rw [bytes_cons, length_append, NetBuf.length_data] at hleft
        omega
      · have := length_pos_of_mem hq'
        omega
    · rintro ⟨rfl, hend⟩
      rw [length_nil] at hlen
      cases hf : r.frag with
      | nil => exact ⟨rfl, hstands.1 hf⟩
      | cons x xs =>
        have hx := hstands.2 x (by rw [hf]; rfl)
        rw [hf, bytes_cons, length_append, NetBuf.length_data] at hfrag
        -- it is empty, and at the end of the packet
        have hempty : x.data = [] := length_eq_zero_iff.1 (show x.len = 0 by omega)
        rw [hf] at hcursor
        obtain ⟨q, hq, heq⟩ := emptiesAt_of_denotes hcursor (mem_emptiesAt_cons.2 (.inl ⟨hempty, rfl⟩))
        rw [show q = (bytes c).length by omega] at hq
        exact absurd hq hend

/-- To read behind the end is a failure. -/
theorem netFragRead_end (hat : Before c frag pos []) (n : Nat) (data : Bool) :
    netFragRead frag pos n data = some ⟨[], 0xffff, []⟩ := by
  obtain ⟨passed, hden, hc⟩ := hat
  obtain ⟨left, p, hadjust, -, hleft, hhead⟩ := adjustOffset_spec c passed.length
  rw [netFragRead_of_denotes hden, netFragRead, hadjust]
  cases left with
  | nil => rfl
  | cons b fs =>
    have := hhead b rfl
    rw [hc, append_nil, bytes_cons, length_append, NetBuf.length_data] at hleft
    omega

/-- What is passed over is not more than was to be, and less if an empty buffer is inside of it. -/
theorem netFragRead_length {r : ReadResult} (hr : netFragRead frag pos n data = some r) (hn : 1 ≤ n)
    (hle : pos + n ≤ (bytes frag).length) :
    (bytes frag).length + r.pos ≤ (bytes r.frag).length + (pos + n) ∧
      ((bytes r.frag).length + (pos + n) ≤ (bytes frag).length + r.pos →
        ∀ q ∈ emptiesAt frag, q ≤ pos ∨ pos + n ≤ q) := by
  obtain ⟨left, p, hadjust, hstart, hleft, hhead⟩ := adjustOffset_spec frag pos
  obtain ⟨b, fs, rfl⟩ := exists_cons_of_ne_nil (l := left) (by
    rintro rfl
    rw [bytes_nil, length_nil] at hleft
    omega)
  rw [netFragRead, hadjust] at hr
  have hsteps : steps (b :: fs) = (bytes (b :: fs)).length + (emptiesAt (b :: fs)).length := rfl
  obtain ⟨-, -, hlen, hstrict⟩ := readLoop_near n (.cons (hhead b rfl)) (by omega) hr
  refine ⟨by omega, fun heq q hq => ?_⟩
  rcases emptiesAt_behind hstart hq with hfront | ⟨q', hq', hsum⟩
  · exact .inl hfront
  · by_contra hinside
    have := hstrict q' hq' (by omega)
    omega

/-- What is made of the bytes read is as good as they are. -/
theorem netFragRead_map {α : Type} {f : ReadResult → α} {P : ReadResult → α → Prop}
    (h : ∀ r, ReadsLinear c o n data r → P r (f r)) :
    (∃ r v, (netFragRead c o n data).map (fun r => (r, f r)) = some (r, v) ∧ ReadsLinear c o n data r ∧ P r v) ↔
      readFits data c o n = true := by
  rw [← netFragRead_linear]
  constructor
  · rintro ⟨r, v, hr, hlin, -⟩
    obtain ⟨_, hread, ⟨⟩⟩ := Option.map_eq_some_iff.1 hr
    exact ⟨r, hread, hlin⟩
  · rintro ⟨r, hr, hlin⟩
    exact ⟨r, f r, by rw [hr]; rfl, hlin, h r hlin⟩

/-- **Protocol parsers read the same bytes whatever the fragmentation** (net_pkt.c:1279-1380), exactly if no empty
buffer is in between the bytes that are read and what is read is not nothing at the end of the packet. -/
theorem netFrag_readsLinear (c : List NetBuf) (o n : Nat) (junk : List UInt8) :
    ((∃ r, netFragRead c o n true = some r ∧ ReadsLinear c o n true r) ↔ readFits true c o n = true) ∧
    ((∃ r, netFragSkip c o n = some r ∧ ReadsLinear c o n false r) ↔ readFits false c o n = true) ∧
    ((∃ r v, netFragReadBe16 junk c o = some (r, v) ∧ ReadsLinear c o 2 true r ∧
      (o + 2 ≤ (bytes c).length → v = be16 (((bytes c).drop o).take 2))) ↔ readFits true c o 2 = true) ∧
    ((∃ r v, netFragReadBe32 junk c o = some (r, v) ∧ ReadsLinear c o 4 true r ∧
      (o + 4 ≤ (bytes c).length → v = be32 (((bytes c).drop o).take 4))) ↔ readFits true c o 4 = true) := by
  have hvalue : ∀ {k : Nat} {r : ReadResult}, ReadsLinear c o k true r → o + k ≤ (bytes c).length → ∀ i < k,
      (r.data ++ junk.drop r.data.length).getD i 0 = (((bytes c).drop o).take k).getD i 0 := by
    intro k r hr hle i hi
    have hlen : (((bytes c).drop o).take k).length = k := by simp; omega
    rw [hr.data hle rfl, getD_append _ _ _ _ (by omega)]
  refine ⟨netFragRead_linear true c o n, netFragRead_linear false c o n, netFragRead_map fun r hlin hle => ?_,
    netFragRead_map fun r hlin hle => ?_⟩
  · rw [be16, be16, hvalue hlin hle 0 (by decide), hvalue hlin hle 1 (by decide)]
  · rw [be32, be32, hvalue hlin hle 0 (by decide), hvalue hlin hle 1 (by decide), hvalue hlin hle 2 (by decide),
      hvalue hlin hle 3 (by decide)]

/-- Two bytes in two buffers, with an empty one before them and one behind. -/
theorem netFrag_readsLinear_acrossTwo :
    ∃ r, netFragRead [⟨[], [7]⟩, ⟨[1, 2], [8]⟩, ⟨[3], []⟩, ⟨[], []⟩] 1 2 true = some r ∧
    ReadsLinear [⟨[], [7]⟩, ⟨[1, 2], [8]⟩, ⟨[3], []⟩, ⟨[], []⟩] 1 2 true r :=
  (netFrag_readsLinear [⟨[], [7]⟩, ⟨[1, 2], [8]⟩, ⟨[3], []⟩, ⟨[], []⟩] 1 2 []).1.2 (by decide)

/-- **An empty buffer in between is read** (net_pkt.c:1284-1293). The content is `1, 2`. Behind its first byte the
reader goes to the empty buffer and takes what is left there from earlier for the second byte; it returns the place
of the byte `2` as the place behind two bytes. And at the end of a packet to read nothing is an error. -/
theorem empty_reads_junk :
    bytes [⟨[1], []⟩, ⟨[], [0xee]⟩, ⟨[2], []⟩] = [1, 2] ∧
    (∃ r, netFragRead [⟨[1], []⟩, ⟨[], [0xee]⟩, ⟨[2], []⟩] 0 2 true = some r ∧ r.data = [1, 0xee] ∧
      r.frag = [⟨[2], []⟩] ∧ r.pos = 0 ∧ ¬ ReadsLinear [⟨[1], []⟩, ⟨[], [0xee]⟩, ⟨[2], []⟩] 0 2 true r) ∧
    ∃ r, netFragRead [⟨[1], []⟩] 1 0 true = some r ∧ ¬ ReadsLinear [⟨[1], []⟩] 1 0 true r := by
  refine ⟨rfl, ⟨_, rfl, rfl, rfl, rfl, fun h => ?_⟩, ⟨_, rfl, fun h => ?_⟩⟩
  · have hdata := h.data (by decide) rfl
    exact absurd hdata (by decide)
  · exact absurd (h.fails.1 ⟨rfl, rfl⟩).1 (by decide)

end Zephyr
