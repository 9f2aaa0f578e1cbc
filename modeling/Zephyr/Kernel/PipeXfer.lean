import Zephyr.Kernel.Pipe
/-!
# What a pipe transfer copies

`Books` is the accounting: what was taken from writers is what was given to readers and then the ring buffer,
byte by byte, and each call's bytes are in order. Every run of bytes that is copied keeps it, and the
descriptors of the waiting calls (`Good`). A list of waiters that is served completely gets or gives exactly
what it asks for; the last lemma says which part of a wait queue that is.
-/
namespace Zephyr

open RingBuffer StableQueue Function List PipeState

variable {β : Type} {pipe : KPipe β} {src : List β} {s s' : PipeState β} {c t w r n : Nat} {bs : List β} {L : List Nat}

/-! ## The ring buffer -/

namespace KPipe

structure RingOk (pipe : KPipe β) : Prop where
  used : pipe.bytesUsed ≤ pipe.size
  read : pipe.readIndex ≤ pipe.size - 1
  write : pipe.writeIndex = (pipe.readIndex + pipe.bytesUsed) % pipe.size

def contents (pipe : KPipe β) : List β := RingBuffer.contents pipe.buffer pipe.size pipe.readIndex pipe.bytesUsed

@[simp] theorem length_contents (pipe : KPipe β) : pipe.contents.length = pipe.bytesUsed := by simp [contents]

theorem contents_eq_nil (h : pipe.bytesUsed = 0) : pipe.contents = [] := eq_nil_of_length_eq_zero (by simp [h])

theorem RingOk.write_le (h : pipe.RingOk) : pipe.writeIndex ≤ pipe.size := by
  have hused := h.used
  have hread := h.read
  rw [h.write]
  rcases Nat.eq_zero_or_pos pipe.size with h0 | hpos
  · rw [h0, Nat.mod_zero]
    omega
  · exact (Nat.mod_lt _ hpos).le

end KPipe

theorem length_pipeXfer (n : Nat) (src : List β) : (pipeXfer n src).length = min n src.length := by
  simp [pipeXfer]

theorem pipeXfer_eq (n : Nat) (src : List β) : pipeXfer n src = src.take n := by
  unfold pipeXfer
  rcases le_total n src.length with h | h
  · rw [min_eq_left h]
  · rw [min_eq_right h, take_of_length_le h, take_of_length_le le_rfl]

/-- A round copies up to the end of the buffer. -/
theorem putRound_spec (h : pipe.RingOk) (src : List β) (written : Nat) :
    ∃ k pipe', putRound src (pipe, written) = (pipe', written + k) ∧
      k = min (min (pipe.size - pipe.bytesUsed) (pipe.size - pipe.writeIndex)) (src.length - written) ∧ pipe'.RingOk ∧
      pipe'.size = pipe.size ∧ pipe'.bytesUsed = pipe.bytesUsed + k ∧ pipe'.contents = pipe.contents ++
      (src.drop written).take k ∧
      pipe'.writeIndex = step pipe.size pipe.writeIndex k := by
  have hused := h.used
  have hlen := length_pipeXfer (min (pipe.size - pipe.bytesUsed) (pipe.size - pipe.writeIndex)) (src.drop written)
  rw [length_drop] at hlen
  have hwrite := h.write_le
  refine ⟨_, _, rfl, hlen, ⟨by simp only; omega, h.read, ?_⟩, rfl, rfl, ?_, rfl⟩
  · simp only
    rw [step_eq_mod (by omega), h.write, Nat.mod_add_mod, Nat.add_assoc]
  · unfold KPipe.contents
    simp only
    rw [contents_write (by omega) h.write (by omega), hlen, pipeXfer_eq, append_cancel_left_eq, ← length_drop,
      min_comm, ← take_eq_take_min]

/-- **`pipe_buffer_put` (pipes.c:219)** adds as many bytes as there is room for. -/
theorem pipeBufferPut_spec (h : pipe.RingOk) (src : List β) :
    ∃ pipe', pipeBufferPut pipe src = (pipe', min src.length (pipe.size - pipe.bytesUsed)) ∧ pipe'.RingOk ∧
    pipe'.size = pipe.size ∧ pipe'.bytesUsed = pipe.bytesUsed + min src.length (pipe.size - pipe.bytesUsed) ∧
      pipe'.contents = pipe.contents ++ src.take (min src.length (pipe.size - pipe.bytesUsed)) := by
  have hwrite := h.write_le
  obtain ⟨k, p1, hp1, hk, h1, hs1, hu1, hc1, hw1⟩ := putRound_spec h src 0
  obtain ⟨j, p2, hp2, hj, h2, hs2, hu2, hc2, -⟩ := putRound_spec h1 src (0 + k)
  -- a second round is needed only from place 0 on
  have hsum : 0 + k + j = min src.length (pipe.size - pipe.bytesUsed) := by
    rw [hs1, hu1, hw1, step] at hj
    split at hj <;> omega
  have hsum' : k + j = min src.length (pipe.size - pipe.bytesUsed) := by omega
  refine ⟨p2, ?_, h2, by omega, by omega, ?_⟩
  · rw [pipeBufferPut, hp1, hp2, hsum]
  · rw [hc2, hc1, append_assoc, ← hsum', drop_zero, Nat.zero_add, take_add]

theorem getRound_spec (h : pipe.RingOk) (m : Nat) (got : List β) :
    ∃ k pipe', getRound m (pipe, got) = (pipe', got ++ pipe.contents.take k) ∧
      k = min (m - got.length) (min pipe.bytesUsed (pipe.size - pipe.readIndex)) ∧ pipe'.RingOk ∧
      pipe'.size = pipe.size ∧ pipe'.bytesUsed = pipe.bytesUsed - k ∧ pipe'.contents = pipe.contents.drop k ∧
      pipe'.readIndex = step pipe.size pipe.readIndex k := by
  have hused := h.used
  have hread := h.read
  have hslice : slice pipe.buffer pipe.readIndex (min pipe.bytesUsed (pipe.size - pipe.readIndex)) =
      pipe.contents.take (min pipe.bytesUsed (pipe.size - pipe.readIndex)) := slice_eq_take (by omega) (by omega)
  have hbytes : pipeXfer (m - got.length) (slice pipe.buffer pipe.readIndex
    (min pipe.bytesUsed (pipe.size - pipe.readIndex))) =
      pipe.contents.take (min (m - got.length) (min pipe.bytesUsed (pipe.size - pipe.readIndex))) := by
    rw [pipeXfer_eq, hslice, take_take]
  have hlen : (pipe.contents.take (min (m - got.length) (min pipe.bytesUsed (pipe.size - pipe.readIndex)))).length =
      min (m - got.length) (min pipe.bytesUsed (pipe.size - pipe.readIndex)) := by
    rw [length_take, KPipe.length_contents]
    omega
  unfold getRound
  simp only [hbytes, hlen]
  refine ⟨_, _, rfl, rfl, ⟨by simp only; omega, ?_, ?_⟩, rfl, rfl, ?_, rfl⟩
  · simp only [step]
    split <;> omega
  · simp only
    rw [step_eq_mod (by omega), Nat.mod_add_mod, h.write]
    congr 1
    omega
  · unfold KPipe.contents
    simp only
    rw [step_eq_mod (by omega), contents_drop]

/-- **`pipe_buffer_get` (pipes.c:256)** takes the first bytes off, up to `m`. -/
theorem pipeBufferGet_spec (h : pipe.RingOk) (m : Nat) :
    ∃ pipe', pipeBufferGet pipe m = (pipe', pipe.contents.take m) ∧ pipe'.RingOk ∧ pipe'.size = pipe.size ∧
      pipe'.bytesUsed = pipe.bytesUsed - m ∧ pipe'.contents = pipe.contents.drop m := by
  have hread := h.read
  have hused := h.used
  obtain ⟨k, p1, hp1, hk, h1, hs1, hu1, hc1, hr1⟩ := getRound_spec h m []
  obtain ⟨j, p2, hp2, hj, h2, hs2, hu2, hc2, -⟩ := getRound_spec h1 m ([] ++ pipe.contents.take k)
  simp only [nil_append, length_take, KPipe.length_contents, length_nil, Nat.sub_zero] at hk hj
  have hsum : k + j = min m pipe.bytesUsed := by
    rw [hs1, hu1, hr1, step] at hj
    split at hj <;> omega
  refine ⟨p2, ?_, h2, by omega, by omega, ?_⟩
  · rw [pipeBufferGet, hp1, hp2, hc1, nil_append, ← take_add, hsum, ← pipe.length_contents, ← take_eq_take_min]
  · rw [hc2, hc1, drop_drop, hsum]
    rcases le_total m pipe.bytesUsed with hle | hle
    · rw [min_eq_left hle]
    · rw [min_eq_right hle, drop_of_length_le (by simp), drop_of_length_le (by simp [hle])]

/-! ## The books -/

namespace PipeState

section

variable (s : PipeState β)

/-- Bytes taken from call `c`. -/
def takenFrom (c : Nat) : List β := s.copies.flatMap (Copy.takenFrom c)

/-- Bytes given to call `c`. -/
def givenTo (c : Nat) : List β := s.copies.flatMap (Copy.givenTo c)

def taken : List β := s.copies.flatMap Copy.taken

def given : List β := s.copies.flatMap Copy.given

def stored : List β := s.copies.flatMap Copy.stored

def fetched : List β := s.copies.flatMap Copy.fetched

end

end PipeState

structure Books (s : PipeState β) : Prop where
  ring : s.pipe.RingOk
  whole : s.given ++ s.pipe.contents = s.taken
  order : s.fetched ++ s.pipe.contents = s.stored
  source : ∀ c, s.takenFrom c <+: s.data c
  dest : ∀ c, s.dest c = s.givenTo c

/-- What the steps of a transfer leave alone. -/
structure SameCalls (s s' : PipeState β) : Prop where
  calls : s'.calls = s.calls
  writers : s'.writers = s.writers
  readers : s'.readers = s.readers
  busy : s'.busy = s.busy
  returned : s'.returned = s.returned

theorem SameCalls.refl (s : PipeState β) : SameCalls s s := ⟨rfl, rfl, rfl, rfl, rfl⟩

theorem SameCalls.trans {s1 s2 s3 : PipeState β} (h : SameCalls s1 s2) (h' : SameCalls s2 s3) : SameCalls s1 s3 :=
  ⟨h'.calls.trans h.calls, h'.writers.trans h.writers, h'.readers.trans h.readers, h'.busy.trans h.busy,
    h'.returned.trans h.returned⟩

section same

variable (h : SameCalls s s')

include h

theorem SameCalls.data (c : Nat) : s'.data c = s.data c := by rw [PipeState.data, PipeState.data, h.calls]

theorem SameCalls.bytesAsked (c : Nat) : s'.bytesAsked c = s.bytesAsked c := by
  rw [PipeState.bytesAsked, PipeState.bytesAsked, h.calls, h.data]

theorem SameCalls.isGet (c : Nat) : isGet s' c = isGet s c := by rw [Zephyr.isGet, Zephyr.isGet, h.calls]

end same

section copies

variable (h : Books s)

include h

/-- A run of bytes is copied: what leaves the ring buffer or a writer is what comes to a reader or into the ring
buffer. -/
theorem Books.copied (hs : SameCalls s s') {x : Copy β} (hcop : s'.copies = s.copies ++ [x]) (hring : s'.pipe.RingOk)
    (hwhole : x.given ++ s'.pipe.contents = s.pipe.contents ++ x.taken)
    (horder : x.fetched ++ s'.pipe.contents = s.pipe.contents ++ x.stored)
    (hsource : ∀ c, s.takenFrom c ++ x.takenFrom c <+: s.data c)
    (hdest : ∀ c, s'.dest c = s.dest c ++ x.givenTo c) : Books s' where
  ring := hring
  whole := by
    have hold := h.whole
    simp only [given, taken, hcop, flatMap_append, flatMap_singleton] at hold ⊢
    rw [append_assoc, hwhole, ← append_assoc, hold]
  order := by
    have hold := h.order
    simp only [fetched, stored, hcop, flatMap_append, flatMap_singleton] at hold ⊢
    rw [append_assoc, horder, ← append_assoc, hold]
  source c := by
    rw [hs.data]
    simpa [takenFrom, hcop] using hsource c
  dest c := by
    rw [hdest, h.dest]
    simp [givenTo, hcop]

theorem Books.source_snoc (hw : s.takenFrom w ++ bs <+: s.data w) (c : Nat) :
    s.takenFrom c ++ (if w = c then bs else []) <+: s.data c := by
  split
  · next hc => exact hc ▸ hw
  · rw [append_nil]
    exact h.source c

end copies

theorem dest_snoc (hd : s'.dest = update s.dest r (s.dest r ++ bs)) (c : Nat) :
    s'.dest c = s.dest c ++ if r = c then bs else [] := by
  rw [hd]
  split
  · next hc => rw [← hc, update_self]
  · next hc => rw [update_of_ne (Ne.symm hc), append_nil]

/-! ## Descriptors -/

structure ReaderOk (s : PipeState β) (r : Nat) : Prop where
  pos : (s.dest r).length = (s.desc r).buffer
  left : (s.desc r).buffer + (s.desc r).bytesToXfer = s.bytesAsked r

structure WriterOk (s : PipeState β) (w : Nat) : Prop where
  pos : s.takenFrom w = (s.data w).take (s.desc w).buffer
  left : (s.desc w).buffer + (s.desc w).bytesToXfer = (s.data w).length

/-- The books are right, and so are the descriptors of the calls of `L`. -/
structure Good (s : PipeState β) (L : List Nat) : Prop where
  books : Books s
  reader : ∀ r ∈ L, isGet s r = true → ReaderOk s r
  writer : ∀ w ∈ L, isGet s w = false → WriterOk s w

theorem Good.mono {L' : List Nat} (h : Good s L) (hL : ∀ t ∈ L', t ∈ L) : Good s L' :=
  ⟨h.books, fun r hr => h.reader r (hL r hr), fun w hw => h.writer w (hL w hw)⟩

/-- A step that changes nothing about the calls of `L` but `a`. -/
theorem Good.step (h : Good s L) (hb : Books s') (hs : SameCalls s s') (a : Nat)
    (hrest : ∀ t ∈ L, t ≠ a → s'.desc t = s.desc t ∧ s'.dest t = s.dest t ∧ s'.takenFrom t = s.takenFrom t)
    (ha : a ∈ L → (isGet s a = true → ReaderOk s' a) ∧ (isGet s a = false → WriterOk s' a)) : Good s' L where
  books := hb
  reader r hr hg := by
    rw [hs.isGet] at hg
    by_cases hra : r = a
    · subst hra
      exact (ha hr).1 hg
    · obtain ⟨hdesc, hdest, -⟩ := hrest r hr hra
      have hok := h.reader r hr hg
      exact ⟨by rw [hdesc, hdest]; exact hok.pos, by rw [hdesc, hs.bytesAsked]; exact hok.left⟩
  writer w hw hg := by
    rw [hs.isGet] at hg
    by_cases hwa : w = a
    · subst hwa
      exact (ha hw).2 hg
    · obtain ⟨hdesc, -, htaken⟩ := hrest w hw hwa
      have hok := h.writer w hw hg
      exact ⟨by rw [hdesc, htaken, hs.data]; exact hok.pos, by rw [hdesc, hs.data]; exact hok.left⟩

/-- A transfer of the call `c` that touches the descriptors of the calls `T` only. -/
structure Moved (c : Nat) (s s' : PipeState β) (L T : List Nat) : Prop where
  good : Good s' L
  same : SameCalls s s'
  desc : ∀ t, t ∉ T → s'.desc t = s.desc t
  still : ∀ t, t ∉ T → t ≠ c → s'.dest t = s.dest t ∧ s'.takenFrom t = s.takenFrom t

theorem Moved.refl (h : Good s L) (c : Nat) : Moved c s s L [] := ⟨h, .refl s, fun _ _ => rfl, fun _ _ _ => ⟨rfl, rfl⟩⟩

theorem Moved.trans {s1 s2 s3 : PipeState β} {T T' : List Nat} (h : Moved c s1 s2 L T) (h' : Moved c s2 s3 L T') :
    Moved c s1 s3 L (T ++ T') where
  good := h'.good
  same := h.same.trans h'.same
  desc t ht := by
    rw [mem_append, not_or] at ht
    rw [h'.desc t ht.2, h.desc t ht.1]
  still t ht htc := by
    rw [mem_append, not_or] at ht
    obtain ⟨hd, hf⟩ := h.still t ht.1 htc
    obtain ⟨hd', hf'⟩ := h'.still t ht.2 htc
    exact ⟨hd'.trans hd, hf'.trans hf⟩

theorem Moved.mono {T T' : List Nat} (h : Moved c s s' L T) (hT : ∀ t ∈ T, t ∈ T') : Moved c s s' L T' :=
  ⟨h.good, h.same, fun t ht => h.desc t fun hm => ht (hT t hm), fun t ht => h.still t fun hm => ht (hT t hm)⟩

/-- One more of the calls is copied for. -/
theorem Moved.snoc {s1 : PipeState β} (h : Moved c s s1 L L) (h' : Moved c s1 s' L [t]) (ht : t ∈ L) :
    Moved c s s' L L := by
  refine (h.trans h').mono fun u hu => ?_
  rcases mem_append.1 hu with hu | hu
  · exact hu
  · rw [mem_singleton.1 hu]
    exact ht

def demand (s : PipeState β) (T : List Nat) : Nat := (T.map fun t => (s.desc t).bytesToXfer).sum

@[simp] theorem demand_nil : demand s [] = 0 := rfl

@[simp] theorem demand_cons {T : List Nat} : demand s (t :: T) = (s.desc t).bytesToXfer + demand s T := by simp [demand]

theorem demand_congr {T : List Nat} (h : ∀ t ∈ T, s'.desc t = s.desc t) : demand s' T = demand s T := by
  unfold demand
  rw [map_congr_left fun t ht => by rw [h t ht]]

theorem takenFrom_direct (s : PipeState β) (w r c : Nat) (bs : List β) :
    (s.log (.direct w r bs)).takenFrom c = s.takenFrom c ++ if w = c then bs else [] := by
  simp [takenFrom, log, Copy.takenFrom]

theorem takenFrom_store (s : PipeState β) (w c : Nat) (bs : List β) :
    (s.log (.store w bs)).takenFrom c = s.takenFrom c ++ if w = c then bs else [] := by
  simp [takenFrom, log, Copy.takenFrom]

theorem take_append_drop_take (l : List β) (n k : Nat) : l.take n ++ (l.drop n).take k = l.take (n + k) := take_add.symm

namespace PipeState

@[simp] theorem log_desc (copy : Copy β) : (s.log copy).desc = s.desc := rfl
@[simp] theorem log_dest (copy : Copy β) : (s.log copy).dest = s.dest := rfl
@[simp] theorem advance_dest : (s.advance c n).dest = s.dest := rfl
@[simp] theorem intoDest_desc : (s.intoDest c n bs).desc = s.desc := rfl

@[simp] theorem advance_desc_self :
    (s.advance c n).desc c = ⟨(s.desc c).buffer + n, (s.desc c).bytesToXfer - n⟩ := update_self ..

theorem advance_desc_ne (h : t ≠ c) : (s.advance c n).desc t = s.desc t := update_of_ne h _ _

theorem intoDest_self (h : (s.dest c).length = n) : (s.intoDest c n bs).dest = update s.dest c (s.dest c ++ bs) := by
  unfold intoDest
  rw [take_of_length_le h.le]

end PipeState

/-! ## What one run of bytes does -/

/-- Bytes go from a writer to a reader while the ring buffer is empty. One of the two is the call `c`, the other
one is `t`, that waits. -/
theorem direct_moved (h : Good s L) (hc : c ∉ L) (hempty : s.pipe.bytesUsed = 0) (hpos : (s.dest r).length = n)
    (hsrc : s.takenFrom w ++ bs <+: s.data w) (hw : w = t ∨ w = c) (hr : r = t ∨ r = c)
    (hok : (isGet s t = true → ReaderOk (((s.intoDest r n bs).advance t bs.length).log (.direct w r bs)) t) ∧
      (isGet s t = false → WriterOk (((s.intoDest r n bs).advance t bs.length).log (.direct w r bs)) t)) :
    Moved c s (((s.intoDest r n bs).advance t bs.length).log (.direct w r bs)) L [t] := by
  have hsame : SameCalls s (((s.intoDest r n bs).advance t bs.length).log (.direct w r bs)) := ⟨rfl, rfl, rfl, rfl, rfl⟩
  have hstill : ∀ u, u ≠ t → u ≠ c → (s.intoDest r n bs).dest u = s.dest u ∧
      (((s.intoDest r n bs).advance t bs.length).log (.direct w r bs)).takenFrom u = s.takenFrom u := by
    intro u hut huc
    have hur : u ≠ r := by rintro rfl; exact hr.elim hut huc
    have hwu : w ≠ u := by rintro rfl; exact hw.elim hut huc
    refine ⟨update_of_ne hur _ _, ?_⟩
    rw [takenFrom_direct, if_neg hwu, append_nil]
    rfl
  refine ⟨h.step ?_ hsame t (fun u hu hut => ⟨advance_desc_ne hut, hstill u hut fun e => hc (e ▸ hu)⟩)
    fun _ => hok, hsame, fun u hu => advance_desc_ne (by simpa using hu), fun u hu => hstill u (by simpa using hu)⟩
  refine h.books.copied hsame rfl h.books.ring ?_ (append_nil _).symm (h.books.source_snoc hsrc)
    (dest_snoc (intoDest_self hpos))
  show bs ++ s.pipe.contents = s.pipe.contents ++ bs
  rw [KPipe.contents_eq_nil hempty, append_nil, nil_append]

/-- Bytes of the call `c` go to a reader that waits. -/
theorem toReader_spec (h : Good s L) (hr : r ∈ L) (hget : isGet s r = true) (hc : c ∉ L) (hempty : s.pipe.bytesUsed = 0)
    {written : Nat} (htaken : s.takenFrom c = (s.data c).take written) :
    ∃ s' k, toReader c (s, written) r = (s', written + k) ∧
    k = min (s.desc r).bytesToXfer ((s.data c).length - written) ∧
      Moved c s s' L [r] ∧ (s'.desc r).bytesToXfer = (s.desc r).bytesToXfer - k ∧ s'.pipe = s.pipe ∧
      s'.woken = s.woken ∧
      s'.readied = s.readied ∧ s'.takenFrom c = (s.data c).take (written + k) := by
  have hlen := length_pipeXfer (s.desc r).bytesToXfer ((s.data c).drop written)
  rw [length_drop] at hlen
  have hok := h.reader r hr hget
  have hmore : s.takenFrom c ++ pipeXfer (s.desc r).bytesToXfer ((s.data c).drop written) =
      (s.data c).take (written + min (s.desc r).bytesToXfer ((s.data c).length - written)) := by
    rw [htaken, pipeXfer, length_drop, take_append_drop_take]
  refine ⟨_, _, rfl, hlen, direct_moved h hc hempty hok.pos (hmore ▸ take_prefix _ _) (.inr rfl) (.inl rfl)
    ⟨fun _ => ⟨?_, ?_⟩, fun hn => ?_⟩, by simp, rfl, rfl, rfl, ?_⟩
  · simp [intoDest_self hok.pos, hok.pos]
  · have := hok.left
    simp only [log_desc, advance_desc_self, intoDest_desc, hlen]
    show _ = s.bytesAsked r
    omega
  · rw [hget] at hn
    cases hn
  · rw [takenFrom_direct, if_pos rfl, hlen]
    exact hmore

/-- What follows does not look at who is ready. -/
theorem Good.congr (h : Good s L) (hp : s'.pipe = s.pipe) (hk : s'.calls = s.calls) (hd : s'.desc = s.desc)
    (ht : s'.dest = s.dest) (hc : s'.copies = s.copies) : Good s' L := by
  cases s
  cases s'
  simp only at hp hk hd ht hc
  subst hp hk hd ht hc
  exact ⟨⟨h.books.ring, h.books.whole, h.books.order, h.books.source, h.books.dest⟩,
    fun r hr hg => ⟨(h.reader r hr hg).pos, (h.reader r hr hg).left⟩,
    fun w hw hg => ⟨(h.writer w hw hg).pos, (h.writer w hw hg).left⟩⟩

/-- No waiter was taken for served with bytes left. -/
def Served (s : PipeState β) : Prop := ∀ e ∈ s.readied, e.2 = 0

theorem Served.served (h : Served s) (ht : (s.desc t).bytesToXfer = 0) : Served (s.served t) := by
  intro e he
  rcases mem_append.1 he with he | he
  · exact h e he
  · rw [mem_singleton.1 he]
    exact ht

/-- A writer that has been served: the thread is woken, a block is done with. -/
theorem pipeThreadReady_spec (h : Good s L) (hz : Served s) (ht : (s.desc t).bytesToXfer = 0) :
    (∀ c, Moved c s (pipeThreadReady s t) L []) ∧ (pipeThreadReady s t).pipe = s.pipe ∧
    (pipeThreadReady s t).dest = s.dest ∧
      (pipeThreadReady s t).desc = s.desc ∧ Served (pipeThreadReady s t) ∧ ∃ U, U.Sublist [t] ∧
      (pipeThreadReady s t).woken = s.woken ++ U := by
  unfold pipeThreadReady
  split
  · exact ⟨fun c => ⟨h.congr rfl rfl rfl rfl rfl, ⟨rfl, rfl, rfl, rfl, rfl⟩, fun _ _ => rfl,
      fun _ _ _ => ⟨rfl, rfl⟩⟩, rfl, rfl, rfl, hz.served ht, [], by simp, (append_nil _).symm⟩
  · exact ⟨fun c => ⟨h.congr rfl rfl rfl rfl rfl, ⟨rfl, rfl, rfl, rfl, rfl⟩, fun _ _ => rfl,
      fun _ _ _ => ⟨rfl, rfl⟩⟩, rfl, rfl, rfl, hz.served ht, [t], by simp, rfl⟩

/-- The loop over the readers that can be served: each gets all it asked for. -/
theorem serveReaders_spec (T : List Nat) :
    ∀ {s : PipeState β} {written : Nat}, Good s L → (∀ r ∈ T, r ∈ L ∧ isGet s r = true) → T.Nodup →
    c ∉ L → (T ≠ [] → s.pipe.bytesUsed = 0) → Served s → s.takenFrom c = (s.data c).take written →
    written + demand s T ≤ (s.data c).length →
    ∃ s', T.foldl (serveReader c) (s, written) = (s', written + demand s T) ∧ Moved c s s' L T ∧ s'.pipe = s.pipe ∧
      s'.woken = s.woken ++ T ∧ Served s' ∧ s'.takenFrom c = (s.data c).take (written + demand s T) := by
  induction T with
  | nil =>
    intro s written h _ _ _ _ hz htaken _
    exact ⟨s, rfl, .refl h c, rfl, (append_nil _).symm, hz, htaken⟩
  | cons r T ih =>
    intro s written h hT hnd hc hempty hz htaken hsum
    obtain ⟨hrT, hnd⟩ := nodup_cons.1 hnd
    obtain ⟨hr, hget⟩ := hT r (by simp)
    rw [demand_cons] at hsum
    obtain ⟨s1, k, hs1, hk, hm1, hx1, hp1, hw1, hr1, ht1⟩ := toReader_spec h hr hget hc (hempty (by simp)) htaken
    obtain rfl : k = (s.desc r).bytesToXfer := by omega
    -- the reader is made ready, the rest of the list asks for what it did
    have hrest : demand s1 T = demand s T := demand_congr fun t ht =>
      hm1.desc t (by rintro ht'; simp at ht'; exact hrT (ht' ▸ ht))
    have hg2 : Good ((s1.served r).wake r) L := hm1.good.congr rfl rfl rfl rfl rfl
    have hz1 : Served s1 := by rw [Served, hr1]; exact hz
    have hz2 : Served ((s1.served r).wake r) := hz1.served (by omega)
    obtain ⟨s', hs', hm', hp', hw', hz', ht'⟩ := ih hg2 (fun t ht => ⟨(hT t (by simp [ht])).1, by
        rw [← (hT t (by simp [ht])).2]; exact hm1.same.isGet t⟩) hnd hc (fun _ => hp1 ▸ hempty (by simp)) hz2
      (show s1.takenFrom c = (s1.data c).take (written + (s.desc r).bytesToXfer) by rw [ht1, hm1.same.data])
      (show written + (s.desc r).bytesToXfer + demand s1 T ≤ (s1.data c).length by rw [hrest, hm1.same.data]; omega)
    have hdem : written + (s.desc r).bytesToXfer + demand ((s1.served r).wake r) T = written + demand s (r :: T) := by
      show written + (s.desc r).bytesToXfer + demand s1 T = _
      rw [hrest, demand_cons, Nat.add_assoc]
    rw [hdem] at hs' ht'
    refine ⟨s', ?_, ?_, hp'.trans hp1, ?_, hz', ?_⟩
    · rw [foldl_cons, serveReader, hs1]
      exact hs'
    · have hm2 : Moved c s1 ((s1.served r).wake r) L [] :=
        ⟨hg2, ⟨rfl, rfl, rfl, rfl, rfl⟩, fun _ _ => rfl, fun _ _ _ => ⟨rfl, rfl⟩⟩
      exact ((hm1.trans hm2).trans hm').mono (by simp)
    · rw [hw']
      show s1.woken ++ [r] ++ T = _
      rw [hw1, append_assoc]
      rfl
    · rw [ht']
      exact congrArg _ (hm1.same.data c)

/-- Bytes of a writer go to the ring buffer. -/
theorem toRing_spec (h : Books s) (hsrc : s.takenFrom w ++ src <+: s.data w) :
    ∃ s' k, toRing s w src = (s', k) ∧ k = min src.length (s.pipe.size - s.pipe.bytesUsed) ∧ Books s' ∧
    SameCalls s s' ∧ s'.desc = s.desc ∧
      s'.dest = s.dest ∧ s'.woken = s.woken ∧ s'.readied = s.readied ∧ s'.pipe.size = s.pipe.size ∧
      s'.pipe.bytesUsed = s.pipe.bytesUsed + k ∧ ∀ c, s'.takenFrom c = s.takenFrom c ++ if w = c then
      src.take k else [] := by
  obtain ⟨pipe', hput, hring, hsize, hused, hcont⟩ := pipeBufferPut_spec h.ring src
  unfold toRing
  rw [hput]
  refine ⟨_, _, rfl, rfl, ?_, ⟨rfl, rfl, rfl, rfl, rfl⟩, rfl, rfl, rfl, rfl, hsize, hused,
    fun c => takenFrom_store _ w c _⟩
  refine h.copied ⟨rfl, rfl, rfl, rfl, rfl⟩ rfl hring hcont hcont (h.source_snoc ?_) fun c => (append_nil _).symm
  exact (prefix_append_right_inj _ |>.2 ( take_prefix _ _)).trans hsrc

theorem WriterOk.srcOf (h : WriterOk s w) : srcOf s w = (s.data w).drop (s.desc w).buffer := by
  have hleft := h.left
  exact take_of_length_le (by rw [length_drop]; omega)

theorem WriterOk.length_srcOf (h : WriterOk s w) : (Zephyr.srcOf s w).length = (s.desc w).bytesToXfer := by
  have hleft := h.left
  rw [h.srcOf, length_drop]
  omega

/-- The bytes that have been taken, and some more. -/
theorem WriterOk.taken_append (h : WriterOk s w) (k : Nat) :
    s.takenFrom w ++ (Zephyr.srcOf s w).take k = (s.data w).take ((s.desc w).buffer + k) := by
  rw [h.pos, h.srcOf, take_append_drop_take]

/-- What is left of a writer after `k` bytes. -/
theorem WriterOk.advance (h : WriterOk s w) {k : Nat} (hk : k ≤ (s.desc w).bytesToXfer) (hs : SameCalls s s')
    (hdesc : s'.desc w = ⟨(s.desc w).buffer + k, (s.desc w).bytesToXfer - k⟩)
    (htaken : s'.takenFrom w = s.takenFrom w ++ (Zephyr.srcOf s w).take k) : WriterOk s' w := by
  have hleft := h.left
  constructor
  · rw [htaken, h.taken_append, hs.data, hdesc]
  · rw [hdesc, hs.data]
    simp only
    omega

/-- Bytes of a writer that waits go to the ring buffer. -/
theorem refill_spec (h : Good s L) (hw : w ∈ L) (hput : isGet s w = false) :
    ∃ k, k = min (s.desc w).bytesToXfer (s.pipe.size - s.pipe.bytesUsed) ∧ (∀ c, Moved c s (refill s w) L [w]) ∧
      ((refill s w).desc w).bytesToXfer = (s.desc w).bytesToXfer - k ∧ (refill s w).pipe.size = s.pipe.size ∧
      (refill s w).pipe.bytesUsed = s.pipe.bytesUsed + k ∧ (refill s w).dest = s.dest ∧ (refill s w).woken = s.woken ∧
      (refill s w).readied = s.readied := by
  have hok := h.writer w hw hput
  have hsrc : s.takenFrom w ++ srcOf s w <+: s.data w :=
    ⟨[], by rw [append_nil, hok.pos, hok.srcOf, take_append_drop]⟩
  obtain ⟨s1, k, hs1, hk, hb1, hc1, hd1, ht1, hw1, hr1, hsz1, hu1, hf1⟩ := toRing_spec h.books hsrc
  rw [hok.length_srcOf] at hk
  have hsame : SameCalls s (s1.advance w k) := ⟨hc1.calls, hc1.writers, hc1.readers, hc1.busy, hc1.returned⟩
  have heq : refill s w = s1.advance w k := by rw [refill, hs1]
  rw [heq]
  have hself : (s1.advance w k).desc w = ⟨(s.desc w).buffer + k, (s.desc w).bytesToXfer - k⟩ := by
    rw [advance_desc_self, hd1]
  have hother : ∀ t, t ≠ w → s1.takenFrom t = s.takenFrom t := fun t htw => by
    rw [hf1, if_neg (Ne.symm htw), append_nil]
  refine ⟨k, hk, fun c => ⟨?_, hsame, fun t ht => ?_,
    fun t ht _ => ⟨by rw [advance_dest, ht1], hother t (by simpa using ht)⟩⟩,
    by rw [hself], hsz1, hu1, ht1, hw1, hr1⟩
  · refine h.step ⟨hb1.ring, hb1.whole, hb1.order, hb1.source, hb1.dest⟩ hsame w (fun t ht htw => ?_) fun _ =>
      ⟨fun hg => ?_, fun _ => ?_⟩
    · exact ⟨(advance_desc_ne htw).trans (by rw [hd1]), by rw [advance_dest, ht1], hother t htw⟩
    · rw [hput] at hg
      cases hg
    · refine hok.advance (by omega) hsame hself ?_
      show s1.takenFrom w = _
      rw [hf1, if_pos rfl]
  · rw [advance_desc_ne (by simpa using ht), hd1]

/-- The loop over the writers whose bytes the ring buffer has room for. -/
theorem refillWriters_spec (T : List Nat) :
    ∀ {s : PipeState β}, Good s L → (∀ w ∈ T, w ∈ L ∧ isGet s w = false) → T.Nodup → Served s →
    s.pipe.bytesUsed + demand s T ≤ s.pipe.size →
    ∃ s', T.foldl refillReady s = s' ∧ (∀ c, Moved c s s' L T) ∧ s'.pipe.size = s.pipe.size ∧
    s'.pipe.bytesUsed = s.pipe.bytesUsed + demand s T ∧
      s'.dest = s.dest ∧ Served s' ∧ ∃ U, U.Sublist T ∧ s'.woken = s.woken ++ U := by
  induction T with
  | nil =>
    intro s h _ _ hz _
    exact ⟨s, rfl, .refl h, rfl, rfl, rfl, hz, [], by simp, (append_nil _).symm⟩
  | cons w T ih =>
    intro s h hT hnd hz hsum
    obtain ⟨hwT, hnd⟩ := nodup_cons.1 hnd
    obtain ⟨hw, hput⟩ := hT w (by simp)
    rw [demand_cons] at hsum
    obtain ⟨k, hk, hm1, hx1, hsz1, hu1, hd1, hw1, hr1⟩ := refill_spec h hw hput
    obtain rfl : k = (s.desc w).bytesToXfer := by omega
    have hz1 : Served (refill s w) := by rw [Served, hr1]; exact hz
    obtain ⟨hm2, hp2, hd2, hx2, hz2, U, hU, hw2⟩ := pipeThreadReady_spec (t := w) (hm1 0).good hz1 (by omega)
    have hmove := fun c => (hm1 c).trans (hm2 c)
    have hm := hmove 0
    have hrest : demand (refillReady s w) T = demand s T :=
      demand_congr fun t ht => hm.desc t (by rintro ht'; simp at ht'; exact hwT (ht' ▸ ht))
    have hpipe : (refillReady s w).pipe = (refill s w).pipe := hp2
    obtain ⟨s', hs', hm', hsz', hu', hd', hz', U', hU', hw'⟩ := ih hm.good (fun t ht => ⟨(hT t (by simp [ht])).1, by
        rw [← (hT t (by simp [ht])).2]; exact hm.same.isGet t⟩) hnd hz2
      (show (refillReady s w).pipe.bytesUsed + demand (refillReady s w) T ≤ (refillReady s w).pipe.size by
        rw [hrest, hpipe, hsz1, hu1]; omega)
    have hdem : demand (pipeThreadReady (refill s w) w) T = demand s T := hrest
    refine ⟨s', ?_, fun c => ((hmove c).trans (hm' c)).mono (by simp), ?_, ?_, ?_, hz', U ++ U', hU.append hU', ?_⟩
    · rw [foldl_cons]
      exact hs'
    · rw [hsz', hp2, hsz1]
    · rw [hu', hdem, hp2, hu1, demand_cons, Nat.add_assoc]
    · rw [hd', hd2, hd1]
    · rw [hw', hw2, hw1, append_assoc]

/-- Bytes of a writer that waits go to the call `c`. -/
theorem fromWriter_spec (h : Good s L) (hw : w ∈ L) (hput : isGet s w = false) (hc : c ∉ L)
    (hempty : s.pipe.bytesUsed = 0) {read : Nat} (hpos : (s.dest c).length = read) :
    ∃ s' k, fromWriter c (s, read) w = (s', read + k) ∧
    k = min (s.bytesAsked c - read) (s.desc w).bytesToXfer ∧ Moved c s s' L [w] ∧
      (s'.desc w).bytesToXfer = (s.desc w).bytesToXfer - k ∧ s'.pipe = s.pipe ∧ s'.woken = s.woken ∧
      s'.readied = s.readied ∧
      (s'.dest c).length = read + k := by
  have hok := h.writer w hw hput
  have hlen := length_pipeXfer (s.bytesAsked c - read) (srcOf s w)
  rw [hok.length_srcOf] at hlen
  have hbs : pipeXfer (s.bytesAsked c - read) (srcOf s w) = (srcOf s w).take
    (min (s.bytesAsked c - read) (s.desc w).bytesToXfer) := by
    rw [pipeXfer, hok.length_srcOf]
  refine ⟨_, _, rfl, hlen, direct_moved h hc hempty hpos ?_ (.inl rfl) (.inr rfl) ⟨fun hg => ?_, fun _ => ?_⟩,
    by simp, rfl, rfl, rfl, ?_⟩
  · rw [hbs, hok.taken_append]
    exact take_prefix _ _
  · rw [hput] at hg
    cases hg
  · refine hok.advance (k := min (s.bytesAsked c - read) (s.desc w).bytesToXfer) (by omega)
      ⟨rfl, rfl, rfl, rfl, rfl⟩ ?_ ?_
    · simp [hlen]
    · rw [takenFrom_direct, if_pos rfl, hbs]
      rfl
  · simp [intoDest_self hpos, hpos]

/-- The loop over the writers whose bytes go to the call `c`: it ends with the list or with the request, whichever
is first. -/
theorem drainWriters_spec (T : List Nat) :
    ∀ {s : PipeState β} {read : Nat}, Good s L → (∀ w ∈ T, w ∈ L ∧ isGet s w = false) → T.Nodup →
    c ∉ L → Served s → (s.dest c).length = read → read ≤ s.bytesAsked c →
    (T ≠ [] → read < s.bytesAsked c → s.pipe.bytesUsed = 0) →
    ∃ s' read' rest, drainWriters c T (s, read) = ((s', read'), rest) ∧ Moved c s s' L T ∧ s'.pipe = s.pipe ∧
    Served s' ∧
      (s'.dest c).length = read' ∧ read' ≤ s.bytesAsked c ∧ read' + demand s' rest = read + demand s T ∧
      (rest = [] ∨ read' = s.bytesAsked c) ∧ ∃ pre U, T = pre ++ rest ∧ U.Sublist pre ∧ s'.woken = s.woken ++ U := by
  induction T with
  | nil =>
    intro s read h _ _ _ hz hpos hle _
    exact ⟨s, read, [], rfl, .refl h c, rfl, hz, hpos, hle, rfl, .inl rfl, [], [], rfl, by simp, (append_nil _).symm⟩
  | cons w T ih =>
    intro s read h hT hnd hc hz hpos hle hempty
    have hstop : ∃ pre U : List Nat, w :: T = pre ++ (w :: T) ∧ U.Sublist pre ∧ s.woken = s.woken ++ U :=
      ⟨[], [], rfl, by simp, (append_nil _).symm⟩
    unfold drainWriters
    by_cases hlt : read < s.bytesAsked c
    · rw [if_pos hlt]
      obtain ⟨hwT, hnd⟩ := nodup_cons.1 hnd
      obtain ⟨hw, hput⟩ := hT w (by simp)
      obtain ⟨s1, k, hs1, hk, hm1, hx1, hp1, hw1, hr1, hd1⟩ := fromWriter_spec h hw hput hc (hempty (by simp) hlt) hpos
      have hz1 : Served s1 := by rw [Served, hr1]; exact hz
      have hrest : demand s1 T = demand s T := demand_congr fun t ht =>
        hm1.desc t (by rintro ht'; simp at ht'; exact hwT (ht' ▸ ht))
      rw [hs1]
      simp only [hm1.same.bytesAsked]
      by_cases hfull : read + k = s.bytesAsked c
      · -- the request is satisfied, perhaps not all of the writer's bytes were needed
        rw [if_pos hfull]
        refine ⟨s1, read + k, w :: T, rfl, hm1.mono (by simp), hp1, hz1, hd1, hfull.le, ?_, .inr hfull, ?_⟩
        · rw [demand_cons, demand_cons, hrest, hx1]
          omega
        · rw [hw1]
          exact hstop
      · rw [if_neg hfull]
        obtain ⟨hm2, hp2, hd2, hx2, hz2, U, hU, hw2⟩ := pipeThreadReady_spec (t := w) hm1.good hz1 (by omega)
        have hm := hm1.trans (hm2 c)
        have hask : (pipeThreadReady s1 w).bytesAsked c = s.bytesAsked c := hm.same.bytesAsked c
        obtain ⟨s', read', rest, hs', hm', hp', hz', hd', hle', hsum', hor, pre, U', hpre, hU', hw'⟩ :=
          ih hm.good (fun t ht => ⟨(hT t (by simp [ht])).1,
            by rw [← (hT t (by simp [ht])).2]; exact hm.same.isGet t⟩) hnd hc hz2
            (show ((pipeThreadReady s1 w).dest c).length = read + k by rw [hd2, hd1]) (by rw [hask]; omega)
            (fun _ _ => by rw [hp2, hp1]; exact hempty (by simp) hlt)
        rw [hask] at hle' hor
        refine ⟨s', read', rest, hs', (hm.trans hm').mono (by simp), by rw [hp', hp2, hp1], hz', hd', hle', ?_, hor,
          w :: pre, U ++ U', by rw [hpre]; rfl, ?_, ?_⟩
        · have hdem : demand (pipeThreadReady s1 w) T = demand s T := by
            rw [← hrest]
            exact demand_congr fun t _ => by rw [hx2]
          rw [hsum', hdem, demand_cons]
          omega
        · exact hU.append hU'
        · rw [hw', hw2, hw1, append_assoc]
    · rw [if_neg hlt]
      exact ⟨s, read, w :: T, rfl, (Moved.refl h c).mono (by simp), rfl, hz, hpos, hle, rfl, .inr (by omega), hstop⟩

/-- The working set is the part of the queue that can be served completely. -/
theorem workingSet_spec (m : Nat) (q : List Nat) :
    ∀ num, num ≤ m → ∃ T wt rest, workingSet s.desc m q num = (T, wt, rest) ∧ q = T ++ rest ∧
    num + demand s T ≤ m ∧ (wt = none → rest = []) ∧ ∀ t ∈ wt, t ∈ rest ∧
    m < num + demand s T + (s.desc t).bytesToXfer := by
  induction q with
  | nil => exact fun num hnum => ⟨[], none, [], rfl, rfl, by simpa using hnum, fun _ => rfl, by simp⟩
  | cons t q ih =>
    intro num hnum
    unfold workingSet
    by_cases hlt : m < num + (s.desc t).bytesToXfer
    · simp only [if_pos hlt]
      refine ⟨[], some t, t :: q, rfl, rfl, by simpa using hnum, by simp, ?_⟩
      rintro _ ⟨⟩
      exact ⟨by simp, by simpa using hlt⟩
    · simp only [if_neg hlt]
      obtain ⟨T, wt, rest, hT, hq, hsum, hnone, hsome⟩ := ih (num + (s.desc t).bytesToXfer) (by omega)
      rw [hT]
      refine ⟨t :: T, wt, rest, rfl, by rw [hq]; rfl, by rw [demand_cons]; omega, hnone, fun u hu => ?_⟩
      have := hsome u hu
      rw [demand_cons]
      exact ⟨this.1, by omega⟩

end Zephyr
