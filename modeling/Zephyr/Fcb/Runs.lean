import Zephyr.Fcb.Init
/-!
# The circular buffer is a log

`FcbSys` is the buffer with the entries its user knows of. An entry is kept until its sector is rotated out. Its
user writes data into it and finishes it, in any order among the entries and after any delay; what it may not do,
or what fails, changes nothing.
-/
namespace Zephyr

open Flash Chunks List

structure FcbRec where
  loc : FcbEntry
  len : Nat
  finished : Bool
deriving DecidableEq

/-- The location with the length, which `fcb_append` leaves to `fcb_append_finish`. -/
def FcbRec.filled (r : FcbRec) : FcbEntry := { r.loc with dataLen := r.len }

structure FcbSys where
  fcb : Fcb
  entries : List FcbRec

inductive FcbOp where
  | append (junk : Nat → UInt8) (len : Nat) (appendLoc : FcbEntry)
  | write (k off : Nat) (data : List UInt8)
  | finish (k : Nat)
  | rotate
  | appendToScratch

namespace FcbSys

section

variable (cfg : FcbCfg) (s : FcbSys)

def append (junk : Nat → UInt8) (len : Nat) (appendLoc : FcbEntry) : FcbSys :=
  match fcbAppend cfg junk s.fcb len appendLoc with
  | .error _ => s
  | .ok (fcb, loc) => ⟨fcb, s.entries ++ [⟨loc, len, false⟩]⟩

/-- Data goes into the place of an entry that is not finished, filled up to the alignment or not. -/
def write (k off : Nat) (data : List UInt8) : FcbSys :=
  match s.entries[k]? with
  | none => s
  | some r =>
    if r.finished ∨ off + data.length > fcbLenInFlash cfg r.len then s
    else
      match fcbFlashWrite s.fcb r.loc.sector (r.loc.dataOff + off) data with
      | none => s
      | some fcb => { s with fcb := fcb }

def finish (k : Nat) : FcbSys :=
  match s.entries[k]? with
  | none => s
  | some r =>
    if r.finished then s
    else
      match fcbAppendFinish cfg s.fcb r.loc with
      | .error _ => s
      | .ok (fcb, _) => ⟨fcb, s.entries.set k { r with finished := true }⟩

def rotate : FcbSys :=
  match fcbRotate cfg s.fcb with
  | .error _ => s
  | .ok fcb => ⟨fcb, s.entries.filter (·.loc.sector ≠ s.fcb.oldest)⟩

def appendToScratch : FcbSys :=
  match fcbAppendToScratch cfg s.fcb with
  | .error _ => s
  | .ok fcb => { s with fcb := fcb }

def step : FcbOp → FcbSys
  | .append junk len appendLoc => s.append cfg junk len appendLoc
  | .write k off data => s.write cfg k off data
  | .finish k => s.finish cfg k
  | .rotate => s.rotate cfg
  | .appendToScratch => s.appendToScratch cfg

def run (ops : List FcbOp) : FcbSys := ops.foldl (step cfg) s

end

end FcbSys

/-! ## The entries of a log -/

/-- The entries of a sector, with whether they are finished. -/
def recsIn (cfg : FcbCfg) (sector off : Nat) (es : List Elem) : List (FcbEntry × Bool) :=
  (located off es).map fun p => (p.2.loc cfg sector p.1, p.2.finished)

/-- Those of the log from its `k`-th sector on. -/
def recsFrom (cfg : FcbCfg) (n o : Nat) : Nat → List (List Elem) → List (FcbEntry × Bool)
  | _, [] => []
  | k, es :: log => recsIn cfg (nthSector n o k) fcbDiskArea es ++ recsFrom cfg n o (k + 1) log

variable {x : FcbEntry × Bool}

section

variable {cfg : FcbCfg} {fcb : Fcb} {log front back : List (List Elem)} {base n o sector off k : Nat}
    {e e' : Elem} {a b es : List Elem}

theorem recsIn_append : recsIn cfg sector off (a ++ b) = recsIn cfg sector off a ++ recsIn cfg sector
    (off + (content Elem.bytes a).length) b := by
  induction a generalizing off with
  | nil => rfl
  | cons e a ih =>
    change _ :: recsIn cfg sector (off + e.bytes.length)
      (a ++ b) = _ :: (recsIn cfg sector (off + e.bytes.length) a ++ _)
    rw [ih, content_cons, length_append, add_assoc]

theorem recsFrom_append : recsFrom cfg n o k (front ++ back) = recsFrom cfg n o k front ++ recsFrom cfg n o
    (k + front.length) back := by
  induction front generalizing k with
  | nil => rfl
  | cons es front ih =>
    rw [cons_append, recsFrom, recsFrom, ih, append_assoc, length_cons, add_right_comm, add_assoc]

/-- The log around one entry. -/
theorem recsFrom_focus : recsFrom cfg n o 0 (front ++ (a ++ e :: b) :: back) =
    (recsFrom cfg n o 0 front ++ recsIn cfg (nthSector n o front.length) fcbDiskArea a) ++
      (e.loc cfg (nthSector n o front.length) (fcbDiskArea + (content Elem.bytes a).length), e.finished) ::
      (recsIn cfg (nthSector n o front.length) (fcbDiskArea + (content Elem.bytes a).length + e.bytes.length) b ++
        recsFrom cfg n o (front.length + 1) back) := by
  rw [recsFrom_append, zero_add, recsFrom, recsIn_append]
  simp only [append_assoc]
  rfl

theorem recsFrom_last {last : List Elem} :
    recsFrom cfg n o 0 (front ++ [last ++ [e]]) = recsFrom cfg n o 0 (front ++ [last]) ++
    [(e.loc cfg (nthSector n o front.length) (fcbDiskArea + (content Elem.bytes last).length), e.finished)] := by
  rw [recsFrom_append, recsFrom_append, zero_add, recsFrom, recsFrom, recsIn_append, append_assoc]
  simp only [recsFrom, append_nil, append_assoc]
  rfl

theorem recsIn_split {r : FcbEntry × Bool} {H₁ H₂ : List (FcbEntry × Bool)}
    (h : recsIn cfg sector off es = H₁ ++ r :: H₂) :
    ∃ a e b, es = a ++ e :: b ∧ H₁ = recsIn cfg sector off a := by
  induction es generalizing off H₁ with
  | nil => simp [recsIn, located] at h
  | cons x es ih =>
    cases H₁ with
    | nil => exact ⟨[], x, es, rfl, rfl⟩
    | cons q H₁ =>
      obtain ⟨hq, htail⟩ := List.cons.inj h
      obtain ⟨a, e, b, rfl, rfl⟩ := ih htail
      exact ⟨x :: a, e, b, rfl, by rw [← hq]; rfl⟩

/-- **The entry behind given ones.** -/
theorem recsFrom_split {r : FcbEntry × Bool} {H₁ H₂ : List (FcbEntry × Bool)}
    (h : recsFrom cfg n o k log = H₁ ++ r :: H₂) :
    ∃ front a e b back, log = front ++ (a ++ e :: b) :: back ∧
      H₁ = recsFrom cfg n o k front ++ recsIn cfg (nthSector n o (k + front.length)) fcbDiskArea a := by
  induction log generalizing k H₁ with
  | nil => simp [recsFrom] at h
  | cons es log ih =>
    rw [recsFrom] at h
    rcases append_eq_append_iff.1 h with ⟨X, hH, hrest⟩ | ⟨X, hes, hrest⟩
    · obtain ⟨front, a, e, b, back, rfl, rfl⟩ := ih hrest
      refine ⟨es :: front, a, e, b, back, rfl, ?_⟩
      rw [hH, recsFrom, append_assoc, length_cons, add_right_comm k 1, add_assoc]
    · cases X with
      | nil =>
        rw [append_nil] at hes
        obtain ⟨front, a, e, b, back, rfl, hnil⟩ := ih (show _ = [] ++ r :: H₂ from hrest.symm)
        refine ⟨es :: front, a, e, b, back, rfl, ?_⟩
        rw [add_right_comm k 1, add_assoc] at hnil
        rw [← hes, recsFrom, append_assoc, length_cons, ← hnil, append_nil]
      | cons q X =>
        obtain ⟨a, e, b, rfl, rfl⟩ := recsIn_split hes
        exact ⟨[], a, e, b, log, rfl, rfl⟩

theorem mem_recsIn (h : x ∈ recsIn cfg sector off es) : x.1.sector = sector := by
  obtain ⟨p, -, rfl⟩ := mem_map.1 h
  rfl

theorem mem_recsFrom (h : x ∈ recsFrom cfg n o k log) :
    ∃ j, k ≤ j ∧ j < k + log.length ∧ x.1.sector = nthSector n o j := by
  induction log generalizing k with
  | nil => exact absurd h not_mem_nil
  | cons es log ih =>
    rw [recsFrom] at h
    rw [length_cons]
    rcases mem_append.1 h with h | h
    · exact ⟨k, le_refl k, by omega, mem_recsIn h⟩
    · obtain ⟨j, hj, hlt, hsector⟩ := ih h
      exact ⟨j, by omega, by omega, hsector⟩

theorem recsFrom_rotate : recsFrom cfg n (nthSector n o 1) k log = recsFrom cfg n o (k + 1) log := by
  induction log generalizing k with
  | nil => rfl
  | cons es log ih => rw [recsFrom, recsFrom, nthSector_rotate, ih]

/-! ## One step -/

/-- The checksum of an entry is right once it is finished, and is not written before. -/
def Elem.Kept (e : Elem) : Prop := if e.finished then e.valid = true else e.tail = erased e.tail.length

/-- What the user knows is what the flash holds. -/
structure SysInv (cfg : FcbCfg) (s : FcbSys) (log : List (List Elem)) (base : Nat) : Prop where
  inv : FcbInv cfg s.fcb log base
  entries : s.entries.map (fun r => (r.filled, r.finished)) = recsFrom cfg s.fcb.flash.length s.fcb.oldest 0 log
  kept : ∀ es ∈ log, ∀ e ∈ es, e.Kept
  scratch : cfg.scratchCnt < s.fcb.flash.length

variable {s : FcbSys}

theorem Wrote.recsFrom_eq {fcb' : Fcb} (h : Wrote fcb fcb') :
    recsFrom cfg fcb'.flash.length fcb'.oldest k log = recsFrom cfg fcb.flash.length fcb.oldest k log := by
  rw [h.length, h.oldest]

theorem recsFrom_empty : recsFrom cfg n o 0 (log ++ [[]]) = recsFrom cfg n o 0 log := by
  rw [recsFrom_append]
  exact append_nil _

theorem kept_empty (h : ∀ es ∈ log, ∀ e ∈ es, e.Kept) : ∀ es ∈ log ++ [[]], ∀ e ∈ es, e.Kept :=
  forall_mem_append.2 ⟨h, by simp⟩

/-- One entry of the log is replaced. -/
theorem kept_replace (h : ∀ es ∈ front ++ (a ++ e :: b) :: back, ∀ x ∈ es, x.Kept) (he' : e'.Kept) :
    ∀ es ∈ front ++ (a ++ e' :: b) :: back, ∀ x ∈ es, x.Kept := by
  simp only [forall_mem_append, forall_mem_cons] at h ⊢
  exact ⟨h.1, ⟨h.2.1.1, he', h.2.1.2.2⟩, h.2.2⟩

section

variable (h : SysInv cfg s log base)

include h

theorem SysInv.appendToScratch : ∃ log', SysInv cfg (s.appendToScratch cfg) log' base := by
  have hspec := fcbAppendToScratch_inv h.inv
  unfold FcbSys.appendToScratch
  cases heq : fcbAppendToScratch cfg s.fcb with
  | error rc => exact ⟨log, h⟩
  | ok fcb =>
    rw [heq] at hspec
    obtain ⟨-, hwrote, hinv⟩ := hspec
    refine ⟨log ++ [[]], hinv, ?_, kept_empty h.kept, hwrote.length ▸ h.scratch⟩
    rw [hwrote.recsFrom_eq, recsFrom_empty]
    exact h.entries

theorem SysInv.append (junk : Nat → UInt8) (len : Nat) (appendLoc : FcbEntry) :
    ∃ log', SysInv cfg (s.append cfg junk len appendLoc) log' base := by
  have hspec := fcbAppend_inv h.inv junk len appendLoc
  unfold FcbSys.append
  cases heq : fcbAppend cfg junk s.fcb len appendLoc with
  | error rc => exact ⟨log, h⟩
  | ok r =>
    obtain ⟨fcb, loc⟩ := r
    rw [heq] at hspec
    obtain ⟨fcb₁, front, last, tmp, pad, hfrom, -, -, hwrote, hinv, rfl⟩ := hspec
    -- the sector that may have been taken is empty
    have hsame : fcb₁.flash.length = s.fcb.flash.length ∧ fcb₁.oldest = s.fcb.oldest ∧
        recsFrom cfg s.fcb.flash.length s.fcb.oldest 0 log = recsFrom cfg s.fcb.flash.length s.fcb.oldest 0
        (front ++ [last]) ∧
        ∀ es ∈ front ++ [last], ∀ e ∈ es, e.Kept := by
      rcases hfrom with ⟨rfl, rfl⟩ | ⟨hw, rfl, rfl⟩
      · exact ⟨rfl, rfl, rfl, h.kept⟩
      · exact ⟨hw.length, hw.oldest, recsFrom_empty.symm, kept_empty h.kept⟩
    obtain ⟨hlen, hold, hrecs, hkept⟩ := hsame
    refine ⟨_, hinv, ?_, ?_, (hwrote.length.trans hlen) ▸ h.scratch⟩
    · rw [hwrote.recsFrom_eq, hlen, hold, map_append, h.entries, hrecs]
      rw [recsFrom_last]
      rfl
    · simp only [forall_mem_append, forall_mem_singleton] at hkept ⊢
      exact ⟨hkept.1, hkept.2, by simp [Elem.Kept, Elem.fresh]⟩

/-- Where an entry the user knows is in the log. -/
theorem SysInv.focus {r : FcbRec} (hr : s.entries[k]? = some r) :
    ∃ E₁ E₂ front a e b back, s.entries = E₁ ++ r :: E₂ ∧ E₁.length = k ∧ log = front ++ (a ++ e :: b) :: back ∧
      r.filled = e.loc cfg (s.fcb.behind front) (fcbDiskArea + (content Elem.bytes a).length) ∧
      r.finished = e.finished ∧
      ∀ (r' : FcbRec) (e' : Elem), r'.filled = r.filled → e'.lenBytes = e.lenBytes → e'.len = e.len →
      e'.bytes.length = e.bytes.length → r'.finished = e'.finished →
        (E₁ ++ r' :: E₂).map (fun r => (r.filled, r.finished)) =
          recsFrom cfg s.fcb.flash.length s.fcb.oldest 0 (front ++ (a ++ e' :: b) :: back) := by
  obtain ⟨hk, rfl⟩ := List.getElem?_eq_some_iff.1 hr
  have hsplit : s.entries = s.entries.take k ++ s.entries[k] :: s.entries.drop (k + 1) := by
    rw [← drop_eq_getElem_cons hk, take_append_drop]
  have hentries := h.entries
  rw [hsplit, map_append, map_cons] at hentries
  obtain ⟨front, a, e, b, back, rfl, hbefore⟩ := recsFrom_split hentries.symm
  rw [zero_add] at hbefore
  rw [recsFrom_focus, hbefore, append_cancel_left_eq] at hentries
  obtain ⟨hkey, hafter⟩ := List.cons.inj hentries
  obtain ⟨hloc, hfin⟩ := Prod.mk.inj hkey
  refine ⟨_, _, front, a, e, b, back, hsplit, length_take_of_le hk.le, rfl, hloc, hfin, ?_⟩
  intro r' e' hfilled hbytes hlen hsize hfinished
  rw [map_append, map_cons, recsFrom_focus, hbefore, hafter, hfilled, hloc, hfinished, hsize]
  simp only [Elem.loc, hbytes, hlen]

theorem SysInv.write (off : Nat) (data : List UInt8) : ∃ log', SysInv cfg (s.write cfg k off data) log' base := by
  unfold FcbSys.write
  cases hr : s.entries[k]? with
  | none => exact ⟨log, h⟩
  | some r =>
    obtain ⟨E₁, E₂, front, a, e, b, back, hentries, -, rfl, hloc, hfin, hrecs⟩ := h.focus hr
    simp only
    split_ifs with hbad
    · exact ⟨_, h⟩
    · obtain ⟨hopen, hroom⟩ := not_or.1 hbad
      have he := h.inv.area.fits (a ++ e :: b) (by simp) e (by simp)
      have hkept := h.kept (a ++ e :: b) (by simp) e (by simp)
      have hlen : r.len = e.len := congrArg FcbEntry.dataLen hloc
      have hsector : r.loc.sector = s.fcb.behind front :=
        (congrArg FcbEntry.sector hloc :)
      have hoff : r.loc.dataOff = fcbDiskArea + (content Elem.bytes a).length + fcbLenInFlash cfg e.lenBytes.length :=
        (congrArg FcbEntry.dataOff hloc :)
      have hx : off + data.length ≤ e.body.length := by
        rw [he.body, ← hlen]
        exact Nat.le_of_not_lt hroom
      obtain ⟨fcb', hwrite, hwrote, hinv⟩ := h.inv.writeBody hx
      rw [hsector, hoff, hwrite]
      refine ⟨_, hinv, ?_, kept_replace h.kept ?_, hwrote.length ▸ h.scratch⟩
      · change s.entries.map _ = _
        rw [hwrote.recsFrom_eq, hentries]
        refine hrecs r _ rfl rfl rfl ?_ hfin
        simp only [Elem.bytes, length_append, length_program hx]
      · -- it is not finished, and its checksum is not written
        have hnot : e.finished = false := by rw [← hfin]; exact Bool.eq_false_iff.2 hopen
        unfold Elem.Kept at hkept ⊢
        rwa [if_neg (by rw [hnot]; decide)] at hkept ⊢

theorem SysInv.finish (hmax : cfg.maxLen ≤ 0x7fff) : ∃ log', SysInv cfg (s.finish cfg k) log' base := by
  unfold FcbSys.finish
  cases hr : s.entries[k]? with
  | none => exact ⟨log, h⟩
  | some r =>
    obtain ⟨E₁, E₂, front, a, e, b, back, hentries, hk, rfl, hloc, hfin, hrecs⟩ := h.focus hr
    simp only
    split_ifs with hdone
    · exact ⟨_, h⟩
    · have he := h.inv.area.fits (a ++ e :: b) (by simp) e (by simp)
      have hkept := h.kept (a ++ e :: b) (by simp) e (by simp)
      have hsector : r.loc.sector = s.fcb.behind front :=
        (congrArg FcbEntry.sector hloc :)
      have hoff : r.loc.elemOff = fcbDiskArea + (content Elem.bytes a).length := (congrArg FcbEntry.elemOff hloc :)
      have hspec := fcbAppendFinish_inv hmax h.inv r.loc.dataOff r.loc.dataLen
      rw [← hsector, ← hoff] at hspec
      cases heq : fcbAppendFinish cfg s.fcb r.loc with
      | error rc => exact ⟨_, h⟩
      | ok res =>
        obtain ⟨fcb', loc'⟩ := res
        rw [heq] at hspec
        obtain ⟨-, hwrote, hinv⟩ := hspec
        have hnot : ¬ e.finished = true := by rwa [← hfin]
        rw [Elem.Kept, if_neg hnot] at hkept
        have hone := le_fcbLenInFlash cfg 1
        refine ⟨_, hinv, ?_, kept_replace h.kept ?_, hwrote.length ▸ h.scratch⟩
        · change (s.entries.set k _).map _ = _
          rw [hwrote.recsFrom_eq, hentries, set_append_right _ _ hk.le, hk, Nat.sub_self, set_cons_zero]
          refine hrecs _ _ rfl rfl rfl ?_ rfl
          have htail : (program e.tail 0 [e.crc]).length = e.tail.length := length_program (by rw [he.tail]; exact hone)
          simp only [Elem.bytes, Elem.seal, length_append, htail]
        · rw [Elem.Kept, if_pos (show e.seal.finished = true from rfl)]
          exact Elem.seal_valid he hkept

theorem SysInv.rotate : ∃ log', SysInv cfg (s.rotate cfg) log' (base + 1) := by
  obtain ⟨es, rest, rfl⟩ := exists_cons_of_ne_nil h.inv.area.ne
  have ho := h.inv.area.oldest
  have hle := h.inv.area.length
  rw [length_cons] at hle
  obtain ⟨fcb', heq, hold, htable, hinv, -⟩ := fcbRotate_inv h.inv
  have hlen : fcb'.flash.length = s.fcb.flash.length := by
    have := congrArg List.length htable
    rwa [length_map, length_map] at this
  unfold FcbSys.rotate
  rw [heq]
  refine ⟨if rest = [] then [[]] else rest, hinv, ?_, ?_, hlen ▸ h.scratch⟩
  · -- the entries of the first sector go, and only they
    have hfilter : (recsFrom cfg s.fcb.flash.length s.fcb.oldest 0 (es :: rest)).filter
      (fun x => x.1.sector ≠ s.fcb.oldest) = recsFrom cfg s.fcb.flash.length s.fcb.oldest 1 rest := by
      rw [recsFrom, filter_append, filter_eq_nil_iff.2, nil_append, filter_eq_self.2]
      · intro x hx
        obtain ⟨j, hj, hlt, hsector⟩ := mem_recsFrom hx
        obtain ⟨i, rfl⟩ : ∃ i, j = i + 1 := ⟨j - 1, by omega⟩
        rw [decide_eq_true_iff, hsector, ne_eq, nthSector_succ_eq ho (by omega)]
        omega
      · intro x hx
        rw [decide_eq_true_iff, mem_recsIn hx, nthSector_zero ho]
        exact not_not_intro rfl
    have hentries : (s.entries.filter (·.loc.sector ≠ s.fcb.oldest)).map (fun r => (r.filled, r.finished)) =
        recsFrom cfg s.fcb.flash.length s.fcb.oldest 1 rest := by
      rw [← hfilter, ← h.entries, filter_map]
      rfl
    change (s.entries.filter (·.loc.sector ≠ s.fcb.oldest)).map _ = recsFrom cfg fcb'.flash.length fcb'.oldest 0 _
    rw [hentries, hlen, hold, recsFrom_rotate]
    split_ifs with hnil
    · rw [hnil]
      rfl
    · rfl
  · intro x hx
    split_ifs at hx with hnil
    · rw [mem_singleton.1 hx]
      exact forall_mem_nil _
    · exact h.kept x (mem_cons_of_mem _ hx)

/-- **One step.** -/
theorem SysInv.step (hmax : cfg.maxLen ≤ 0x7fff) (op : FcbOp) :
    ∃ log' base', SysInv cfg (s.step cfg op) log' base' := by
  cases op with
  | append junk len appendLoc => exact (h.append junk len appendLoc).imp fun _ h' => ⟨_, h'⟩
  | write k off data => exact (h.write off data).imp fun _ h' => ⟨_, h'⟩
  | finish k => exact (h.finish hmax).imp fun _ h' => ⟨_, h'⟩
  | rotate => exact h.rotate.imp fun _ h' => ⟨_, h'⟩
  | appendToScratch => exact h.appendToScratch.imp fun _ h' => ⟨_, h'⟩

/-- **A run.** -/
theorem SysInv.run (hmax : cfg.maxLen ≤ 0x7fff) (ops : List FcbOp) :
    ∃ log' base', SysInv cfg (s.run cfg ops) log' base' := by
  induction ops generalizing s log base with
  | nil => exact ⟨log, base, h⟩
  | cons op ops ih =>
    obtain ⟨log', base', h'⟩ := h.step hmax op
    exact ih h'

end

/-- **At the beginning** one sector is in use, and it has no entry. -/
theorem SysInv.start {flash : List (List UInt8)} (hmax : cfg.maxLen ≤ 0x7fff)
    (hblank : ∀ s ∈ flash, s = erased s.length)
    (hinit : fcbInit cfg flash = some (.ok fcb)) : SysInv cfg ⟨fcb, []⟩ [[]] 0 := by
  obtain ⟨hinv, -, htable, -, hscratch⟩ := fcbInit_erased hmax hblank hinit
  have hlen := congrArg List.length htable
  rw [length_map, length_map] at hlen
  exact ⟨hinv, rfl, by simp, hlen ▸ hscratch⟩

/-! ## What a walk visits -/

theorem visible_eq_recsIn (h : ∀ e ∈ es, e.valid = e.finished) :
    visible cfg sector off es = ((recsIn cfg sector off es).filter (·.2)).map (·.1) := by
  induction es generalizing off with
  | nil => rfl
  | cons e es ih =>
    have hrest : visible cfg sector (off + e.bytes.length) es = _ := ih fun x hx => h x (mem_cons_of_mem _ hx)
    have hcons : recsIn cfg sector off (e :: es) = (e.loc cfg sector off, e.finished) :: recsIn cfg sector
      (off + e.bytes.length) es := rfl
    rw [visible_cons, hcons, h e mem_cons_self, hrest]
    cases e.finished <;> rfl

theorem visibleIn_eq_recsFrom (h : ∀ es ∈ log, ∀ e ∈ es, e.valid = e.finished) :
    visibleIn cfg (viewFrom n o k log) = ((recsFrom cfg n o k log).filter (·.2)).map (·.1) := by
  induction log generalizing k with
  | nil => rfl
  | cons es log ih =>
    rw [recsFrom, filter_append, map_append, ← visible_eq_recsIn (h es mem_cons_self),
      ← ih fun x hx => h x (mem_cons_of_mem _ hx)]
    rfl

theorem mem_split {e : Elem} (hes : es ∈ log) (he : e ∈ es) :
    ∃ front a b back, log = front ++ (a ++ e :: b) :: back := by
  obtain ⟨front, back, rfl⟩ := append_of_mem hes
  obtain ⟨a, b, rfl⟩ := append_of_mem he
  exact ⟨front, a, b, back, rfl⟩

/-- Every entry in the flash is one the user knows. -/
theorem SysInv.entry_of_mem (h : SysInv cfg s (front ++ (a ++ e :: b) :: back) base) :
    ∃ r ∈ s.entries, r.filled = e.loc cfg (s.fcb.behind front) (fcbDiskArea + (content Elem.bytes a).length) ∧
      r.finished = e.finished := by
  have hmem : (e.loc cfg (s.fcb.behind front) (fcbDiskArea + (content Elem.bytes a).length), e.finished) ∈
      s.entries.map (fun r => (r.filled, r.finished)) := by
    rw [h.entries, recsFrom_focus]
    simp
  obtain ⟨r, hr, hkey⟩ := mem_map.1 hmem
  exact ⟨r, hr, (Prod.mk.inj hkey).1, (Prod.mk.inj hkey).2⟩

theorem FcbInv.elemInfo (hmax : cfg.maxLen ≤ 0x7fff)
    (h : FcbInv cfg fcb (front ++ (a ++ e :: b) :: back) base) (d l : Nat) :
    fcbElemInfo cfg fcb.flash ⟨fcb.behind front, fcbDiskArea + (content Elem.bytes a).length, d, l⟩ =
      (if e.valid then 0 else fcbErrCrc, e.loc cfg (fcb.behind front)
        (fcbDiskArea + (content Elem.bytes a).length)) := by
  obtain ⟨m, hflash⟩ := h.entryAt
  have hinfo := fcbElemInfo_elem hmax (h.area.fits (a ++ e :: b) (by simp) e (by simp)) hflash d l
  rwa [length_append, length_fcbDiskHdr] at hinfo

section

variable (hmax : cfg.maxLen ≤ 0x7fff) (h : SysInv cfg s log base)
  (hcrc : ∀ r ∈ s.entries, r.finished = false → (fcbElemInfo cfg s.fcb.flash r.loc).1 = fcbErrCrc)

include hmax h hcrc

/-- With no checksum right by chance, the valid entries are the finished ones. -/
theorem SysInv.valid_eq : ∀ es ∈ log, ∀ e ∈ es, e.valid = e.finished := by
  intro es hes e he
  have hkept := h.kept es hes e he
  obtain ⟨front, a, b, back, rfl⟩ := mem_split hes he
  cases hfin : e.finished with
  | true => rwa [Elem.Kept, if_pos hfin] at hkept
  | false =>
    obtain ⟨r, hr, hloc, hrfin⟩ := h.entry_of_mem
    have hsector : r.loc.sector = s.fcb.behind front :=
      (congrArg FcbEntry.sector hloc :)
    have hoff : r.loc.elemOff = fcbDiskArea + (content Elem.bytes a).length := (congrArg FcbEntry.elemOff hloc :)
    have hinfo := h.inv.elemInfo hmax r.loc.dataOff r.loc.dataLen
    rw [← hsector, ← hoff] at hinfo
    have hrc := hcrc r hr (hrfin.trans hfin)
    rw [hinfo] at hrc
    by_contra hvalid
    rw [if_pos (by simpa using hvalid)] at hrc
    exact absurd hrc (show (0 : ℤ) ≠ fcbErrCrc by decide)

theorem SysInv.walk :
    fcbWalk cfg s.fcb = some ((s.entries.filter (·.finished)).map FcbRec.filled) ∧
    fcbGetnextAll cfg s.fcb = some ((s.entries.filter (·.finished)).map FcbRec.filled) := by
  have hvisible : visibleIn cfg (viewFrom s.fcb.flash.length s.fcb.oldest 0 log) =
    (s.entries.filter (·.finished)).map FcbRec.filled := by
    rw [visibleIn_eq_recsFrom (h.valid_eq hmax hcrc), ← h.entries, filter_map, map_map]
    rfl
  rw [← hvisible]
  exact fcbWalk_live hmax h.inv.live

end

/-! ## Where the entries are -/

theorem recsIn_extent (hfits : ∀ e ∈ es, e.Fits cfg) (h : x ∈ recsIn cfg sector off es) :
    off ≤ x.1.elemOff ∧ x.1.elemOff < x.1.dataOff ∧ (x.1.skip cfg).elemOff ≤ off + (content Elem.bytes es).length := by
  induction es generalizing off with
  | nil => exact absurd h not_mem_nil
  | cons e es ih =>
    have he := hfits e mem_cons_self
    rw [content_cons, length_append]
    rcases mem_cons.1 h with rfl | h
    · have hskip := skip_loc he sector off
      have hcnt := length_fcbPutLen he.put
      have hlen := le_fcbLenInFlash cfg e.lenBytes.length
      have hdata : (e.loc cfg sector off).dataOff = off + fcbLenInFlash cfg e.lenBytes.length := rfl
      exact ⟨le_refl off, by change off < (e.loc cfg sector off).dataOff; omega,
        by change ((e.loc cfg sector off).skip cfg).elemOff ≤ _; omega⟩
    · have := ih (fun y hy => hfits y (mem_cons_of_mem _ hy)) h
      omega

theorem recsIn_pairwise (hfits : ∀ e ∈ es, e.Fits cfg) :
    (recsIn cfg sector off es).Pairwise fun x y => (x.1.skip cfg).elemOff ≤ y.1.elemOff := by
  induction es generalizing off with
  | nil => exact List.Pairwise.nil
  | cons e es ih =>
    have hes : ∀ y ∈ es, y.Fits cfg := fun y hy => hfits y (mem_cons_of_mem _ hy)
    refine List.Pairwise.cons (fun y hy => ?_) (ih hes)
    rw [skip_loc (hfits e mem_cons_self)]
    exact (recsIn_extent hes hy).1

/-- No two entries overlap: those of one sector come one behind the other. -/
theorem recsFrom_pairwise (hfits : ∀ es ∈ log, ∀ e ∈ es, e.Fits cfg) (hlen : k + log.length ≤ n) :
    (recsFrom cfg n o k log).Pairwise fun x y => x.1.sector = y.1.sector → (x.1.skip cfg).elemOff ≤ y.1.elemOff := by
  induction log generalizing k with
  | nil => exact List.Pairwise.nil
  | cons es log ih =>
    rw [length_cons] at hlen
    rw [recsFrom, pairwise_append]
    refine ⟨(recsIn_pairwise (hfits es mem_cons_self)).imp (by exact fun hle _ => hle),
      ih (fun x hx => hfits x (mem_cons_of_mem _ hx)) (by omega), ?_⟩
    intro x hx y hy heq
    obtain ⟨j, hj, hlt, hsector⟩ := mem_recsFrom hy
    rw [mem_recsIn hx, hsector] at heq
    have := nthSector_inj (by omega) (by omega) heq
    omega

/-- Every entry is inside of its sector, behind the header. -/
theorem Area.extent {flash : List (List UInt8)} (h : Area cfg flash o log base)
    (hx : x ∈ recsFrom cfg flash.length o 0 log) :
    fcbDiskArea ≤ x.1.elemOff ∧ x.1.elemOff < x.1.dataOff ∧ (x.1.skip cfg).elemOff ≤ sectorSize flash x.1.sector := by
  obtain ⟨H₁, H₂, hsplit⟩ := append_of_mem hx
  obtain ⟨front, a, e, b, back, rfl, rfl⟩ := recsFrom_split hsplit
  rw [zero_add, recsFrom_focus, append_cancel_left_eq] at hsplit
  obtain rfl := (List.cons.inj hsplit).1
  have he := h.fits (a ++ e :: b) (by simp) e (by simp)
  have hskip := skip_loc he (nthSector flash.length o front.length) (fcbDiskArea + (content Elem.bytes a).length)
  have hcnt := length_fcbPutLen he.put
  have hlen := le_fcbLenInFlash cfg e.lenBytes.length
  obtain ⟨m, hm⟩ := h.used front.length (by simp)
  rw [getD_mid, content_append, content_cons] at hm
  refine ⟨by simp only [Elem.loc]; omega, by simp only [Elem.loc]; omega, ?_⟩
  rw [hskip, Elem.loc, sectorSize, hm]
  simp only [length_append, length_fcbDiskHdr]
  omega

/-- **The circular buffer is a log.** From erased flash, after every sequence of calls: the entries whose sector
has not been rotated out do not overlap and are inside of their sectors; `fcb_walk` and `fcb_getnext` visit the
finished ones of them, in order, with the place that `fcb_append` gave and the length it was given, unless the
checksum of an unfinished one is right by chance; and `FCB_ERR_NOSPACE` is returned only if too few sectors are
free or the next one is too small. -/
theorem fcb_is_log {flash : List (List UInt8)} (hmax : cfg.maxLen ≤ 0x7fff) (hblank : ∀ s ∈ flash, s = erased s.length)
    (hinit : fcbInit cfg flash = some (.ok fcb)) (ops : List FcbOp) :
    let s := FcbSys.run cfg ⟨fcb, []⟩ ops
    (∀ r ∈ s.entries, fcbDiskArea ≤ r.loc.elemOff ∧ r.loc.elemOff < r.loc.dataOff ∧
      (r.filled.skip cfg).elemOff ≤ sectorSize s.fcb.flash r.loc.sector) ∧
    s.entries.Pairwise (fun r r' => r.loc.sector = r'.loc.sector → (r.filled.skip cfg).elemOff ≤ r'.loc.elemOff) ∧
    ((∀ r ∈ s.entries, r.finished = false → (fcbElemInfo cfg s.fcb.flash r.loc).1 = fcbErrCrc) →
      fcbWalk cfg s.fcb = some ((s.entries.filter (·.finished)).map FcbRec.filled) ∧
      fcbGetnextAll cfg s.fcb = some ((s.entries.filter (·.finished)).map FcbRec.filled)) ∧
    ∀ junk len appendLoc, fcbAppend cfg junk s.fcb len appendLoc = .error fcbErrNospace →
      fcbFreeSectorCnt s.fcb < cfg.scratchCnt + 1 ∨
      ∃ tmp, fcbPutLen cfg len = some tmp ∧ sectorSize s.fcb.flash (fcbGetnextSector s.fcb.flash s.fcb.active) <
        fcbDiskArea + (fcbLenInFlash cfg len + fcbLenInFlash cfg 1 + fcbLenInFlash cfg tmp.length) := by
  obtain ⟨log, base, h⟩ := (SysInv.start hmax hblank hinit).run hmax ops
  generalize FcbSys.run cfg ⟨fcb, []⟩ ops = s at h
  have hentry : ∀ r ∈ s.entries, (r.filled, r.finished) ∈ recsFrom cfg s.fcb.flash.length s.fcb.oldest 0 log :=
      fun r hr => by
    rw [← h.entries]
    exact mem_map_of_mem hr
  refine ⟨fun r hr => h.inv.area.extent (hentry r hr), ?_, h.walk hmax, ?_⟩
  · have hlen : 0 + log.length ≤ s.fcb.flash.length := by
      rw [zero_add]
      exact h.inv.area.length
    have hpair := recsFrom_pairwise (o := s.fcb.oldest) h.inv.area.fits hlen
    rw [← h.entries, pairwise_map] at hpair
    exact hpair
  · intro junk len appendLoc hfull
    have hspec := fcbAppend_inv h.inv junk len appendLoc
    rw [hfull] at hspec
    rcases hspec with ⟨hrc, -⟩ | ⟨-, tmp, size, hput, rfl, -, hwhy⟩
    · exact absurd hrc (by decide)
    · exact hwhy.imp_right fun hsmall => ⟨tmp, hput, hsmall⟩

def twoSectorsCfg : FcbCfg := ⟨0xc0ffeeee, 1, 1, 1, 0x3fff⟩

/-- Two sectors of 24 bytes. -/
def twoSectors : Fcb := ⟨[fcbDiskHdr twoSectorsCfg 0 ++ erased 16, erased 24], [[erased 24, erased 24]], 0, 0, 8, 0⟩

theorem fcbInit_twoSectors : fcbInit twoSectorsCfg [erased 24, erased 24] = some (.ok twoSectors) := rfl

/-- Of two entries, the second one is not finished. -/
theorem fcb_is_log_twoEntries :
    fcbWalk twoSectorsCfg (FcbSys.run twoSectorsCfg ⟨twoSectors, []⟩
        [.append (fun _ => 0) 2 ⟨0, 0, 0, 0⟩, .write 0 0 [1, 2], .finish 0,
          .append (fun _ => 0) 1 ⟨0, 0, 0, 0⟩]).fcb = some [⟨0, 8, 9, 2⟩] := by
  have h := (fcb_is_log (by decide) (by decide) fcbInit_twoSectors
    [.append (fun _ => 0) 2 ⟨0, 0, 0, 0⟩, .write 0 0 [1, 2], .finish 0,
      .append (fun _ => 0) 1 ⟨0, 0, 0, 0⟩]).2.2.1 (by decide +kernel)
  exact h.1.trans (by decide +kernel)

/-- **A sector that is too small is not passed over** (fcb_append.c:80-86). Of sectors of 24, 12 and 64 bytes, the
last two are free. An entry of 20 bytes would fit into the last one. -/
theorem small_sector_stops :
    ∃ fcb, fcbInit { twoSectorsCfg with scratchCnt := 0 } [erased 24, erased 12, erased 64] = some (.ok fcb) ∧
      fcbAppend { twoSectorsCfg with scratchCnt := 0 } (fun _ => 0) fcb 20 ⟨0, 0, 0, 0⟩ = .error fcbErrNospace ∧
      fcbFreeSectorCnt fcb = 2 ∧ fcbDiskArea + (20 + 1 + 1) ≤ sectorSize fcb.flash 2 :=
  ⟨_, rfl, by decide, by decide, by decide⟩

end

end Zephyr
