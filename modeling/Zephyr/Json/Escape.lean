import Mathlib.Data.List.Induction
import Zephyr.Lib.Memory
import Zephyr.Kernel.Api
/-!
# Escaping of JSON strings (lib/json/json.c:602-698)

`json_escape_internal` gives the escaped string to a callback piece by piece, `json_escape` expands it in its own
buffer, from the right to the left. `size_t` does not wrap: no object is larger than half of the memory.
-/
namespace Zephyr

open Memory List Function

def escapeAs (chr : UInt8) : UInt8 :=
  match chr with
  | 34 => 34 -- '"'
  | 92 => 92 -- '\\'
  | 8 => 98 -- '\b'
  | 12 => 102 -- '\f'
  | 10 => 110 -- '\n'
  | 13 => 114 -- '\r'
  | 9 => 116 -- '\t'
  | _ => 0

/-- `json_append_bytes_t`: what it returns, and the data it is called with. -/
abbrev AppendBytes (σ : Type) := List UInt8 → σ → ℤ × σ

def escapeLoop {σ : Type} (appendBytes : AppendBytes σ) : List UInt8 → σ → ℤ × σ
  | [], data => (0, data)
  | cur :: rest, data =>
    let escaped := escapeAs cur
    let (ret, data) := if escaped ≠ 0 then appendBytes [92, escaped] data else appendBytes [cur] data
    if ret = 0 then escapeLoop appendBytes rest data else (ret, data)

def jsonEscapeInternal {σ : Type} (str : CString) (appendBytes : AppendBytes σ) (data : σ) : ℤ × σ :=
    escapeLoop appendBytes str.chars data

def jsonCalcEscapedLen (str : Nat → UInt8) (len : Nat) : Nat :=
  (range len).foldl (fun escapedLen pos => if escapeAs (str pos) ≠ 0 then escapedLen + 1 else escapedLen) len

/-- The loop from the ends of the original and of the escaped string. -/
def expandLoop (str : Nat → UInt8) : Nat → Nat → Nat → UInt8
  | 0, _ => str
  | next + 1, dest =>
    let nextC := str next
    let escape := escapeAs nextC
    if escape ≠ 0 then expandLoop (update (update str (dest - 1) escape) (dest - 2) 92) next (dest - 2)
    else expandLoop (update str (dest - 1) nextC) next (dest - 1)

structure Escaped where
  ret : ℤ
  str : Nat → UInt8
  len : Nat

def jsonEscape (str : Nat → UInt8) (len bufSize : Nat) : Escaped :=
  let escapedLen := jsonCalcEscapedLen str len
  if escapedLen = len then ⟨0, str, len⟩
  else if bufSize ≤ escapedLen then ⟨enomem, str, len⟩
  else ⟨0, expandLoop (update str escapedLen 0) len escapedLen, escapedLen⟩

/-! ## The escaped string -/

/-- The callback that keeps what it gets. -/
def collect : AppendBytes (List UInt8) := fun bytes data => (0, data ++ bytes)

def escapeChar (c : UInt8) : List UInt8 := if escapeAs c ≠ 0 then [92, escapeAs c] else [c]

def escape (s : List UInt8) : List UInt8 := s.flatMap escapeChar

theorem escape_append (s t : List UInt8) : escape (s ++ t) = escape s ++ escape t := flatMap_append

theorem escape_singleton (c : UInt8) : escape [c] = escapeChar c := by simp [escape]

theorem length_le_escape (s : List UInt8) : s.length ≤ (escape s).length := by
  induction s with
  | nil => exact Nat.le_refl _
  | cons c s ih =>
    have hchar : 1 ≤ (escapeChar c).length := by
      unfold escapeChar
      split <;> simp
    simp only [escape, flatMap_cons, length_append, length_cons] at ih ⊢
    omega

theorem escape_eq_self {s : List UInt8} (h : (escape s).length = s.length) : escape s = s := by
  induction s with
  | nil => rfl
  | cons c s ih =>
    have hle := length_le_escape s
    simp only [escape, flatMap_cons, length_append, length_cons] at h hle ih ⊢
    by_cases he : escapeAs c ≠ 0
    · simp only [escapeChar, if_pos he, length_cons, length_nil] at h
      omega
    · simp only [escapeChar, if_neg he, length_cons, length_nil, singleton_append] at h ⊢
      rw [ih (by omega)]

theorem escapeLoop_collect (s bytes : List UInt8) : escapeLoop collect s bytes = (0, bytes ++ escape s) := by
  induction s generalizing bytes with
  | nil => simp [escapeLoop, escape]
  | cons c s ih =>
    have hpiece : (if escapeAs c ≠ 0 then collect [92, escapeAs c] bytes else collect [c] bytes) = (0,
      bytes ++ escapeChar c) := by
      unfold escapeChar
      split <;> rfl
    rw [escapeLoop, hpiece]
    simp only [if_true, ih, escape, flatMap_cons, append_assoc]

section

variable {m : Nat → UInt8} {s : List UInt8}

theorem jsonCalcEscapedLen_eq (h : Holds m 0 s) : jsonCalcEscapedLen m s.length = (escape s).length := by
  -- the count goes over the places, and has started with the length of the whole string
  have hcount : ∀ n, Holds m 0 s → (range s.length).foldl (fun k pos => if escapeAs (m pos) ≠ 0 then
    k + 1 else k) (n + s.length) = n + (escape s).length := by
    clear h
    induction s using reverseRecOn with
    | nil => exact fun n _ => rfl
    | append_singleton s c ih =>
      intro n h
      obtain ⟨hs, hc, -⟩ := holds_append.1 h
      rw [Nat.zero_add] at hc
      rw [length_append, length_singleton, range_succ, foldl_append, foldl_cons, foldl_nil, hc, escape_append,
        escape_singleton, length_append, ← Nat.add_assoc, Nat.add_right_comm, ih (n + 1) hs]
      unfold escapeChar
      split <;> simp only [length_cons, length_nil] <;> omega
  have := hcount 0 h
  rwa [Nat.zero_add, Nat.zero_add] at this

/-- **The expansion in place.** What is overwritten has been read: the escaped front part is at least as long as
the front part. -/
theorem expandLoop_spec (h : Holds m 0 s) :
    Holds (expandLoop m s.length (escape s).length) 0 (escape s) ∧
      ∀ i, (escape s).length ≤ i → expandLoop m s.length (escape s).length i = m i := by
  induction s using reverseRecOn generalizing m with
  | nil => exact ⟨trivial, fun i _ => rfl⟩
  | append_singleton s c ih =>
    obtain ⟨hs, hc, -⟩ := holds_append.1 h
    rw [Nat.zero_add] at hc
    have hlen := length_le_escape s
    rw [escape_append, escape_singleton, show (s ++ [c]).length = s.length + 1 by simp, expandLoop, hc]
    by_cases he : escapeAs c ≠ 0
    · have hd : (escape s ++ escapeChar c).length = (escape s).length + 2 := by simp [escapeChar, he]
      obtain ⟨hheld, hbehind⟩ := ih (m := update (update m ((escape s).length + 1) (escapeAs c)) (escape s).length 92)
        ((hs.update (by omega)).update (by omega))
      simp only [if_pos he, hd, Nat.add_sub_cancel, show (escape s).length + 2 - 1 = (escape s).length + 1 from rfl]
      refine ⟨holds_append.2 ⟨hheld, ?_⟩, fun i hi => ?_⟩
      · simp only [escapeChar, if_pos he, Nat.zero_add, holds_cons, holds_nil, and_true]
        rw [hbehind _ (Nat.le_refl _), hbehind _ (by omega)]
        simp
      · rw [hbehind i (by omega), update_of_ne (by omega), update_of_ne (by omega)]
    · have hd : (escape s ++ escapeChar c).length = (escape s).length + 1 := by simp [escapeChar, he]
      obtain ⟨hheld, hbehind⟩ := ih (m := update m (escape s).length c) (hs.update (by omega))
      simp only [if_neg he, hd, Nat.add_sub_cancel]
      refine ⟨holds_append.2 ⟨hheld, ?_⟩, fun i hi => ?_⟩
      · simp only [escapeChar, if_neg he, Nat.zero_add, holds_cons, holds_nil, and_true]
        rw [hbehind _ (Nat.le_refl _), update_self]
      · rw [hbehind i (by omega), update_of_ne (by omega)]

end

/-- **`json_escape` (json.c:663) leaves what `json_escape_internal` appends**, and its terminator, or there is no
space for it and it leaves everything as it is. It writes inside of the buffer only. -/
theorem jsonEscape_streams (s : CString) (str : Nat → UInt8) (bufSize : Nat) (h : Holds str 0 (s.chars ++ [0])) :
    let bytes := (jsonEscapeInternal s collect []).2
    let r := jsonEscape str s.chars.length bufSize
    jsonCalcEscapedLen str s.chars.length = bytes.length ∧
      (r.ret = 0 ∧ Holds r.str 0 (bytes ++ [0]) ∧ r.len = bytes.length ∨
        r.ret = enomem ∧ bufSize ≤ bytes.length ∧ r.str = str ∧ r.len = s.chars.length) ∧
      ∀ i, bufSize ≤ i → r.str i = str i := by
  obtain ⟨hs, hnul, -⟩ := holds_append.1 h
  have hlen := jsonCalcEscapedLen_eq hs
  simp only [jsonEscapeInternal, escapeLoop_collect, nil_append, jsonEscape, hlen, true_and]
  by_cases hsame : (escape s.chars).length = s.chars.length
  · rw [if_pos hsame]
    refine ⟨.inl ⟨rfl, ?_, hsame.symm⟩, fun _ _ => rfl⟩
    rwa [escape_eq_self hsame]
  · rw [if_neg hsame]
    by_cases hroom : bufSize ≤ (escape s.chars).length
    · rw [if_pos hroom]
      exact ⟨.inr ⟨rfl, hroom, rfl, rfl⟩, fun _ _ => rfl⟩
    · rw [if_neg hroom]
      have hle := length_le_escape s.chars
      obtain ⟨hheld, hbehind⟩ := expandLoop_spec (hs.update (i := (escape s.chars).length) (x := 0) (by omega))
      refine ⟨.inl ⟨rfl, holds_append.2 ⟨hheld, ?_, trivial⟩, rfl⟩, fun i hi => ?_⟩
      · change expandLoop _ _ _ (0 + _) = _
        rw [Nat.zero_add, hbehind _ (Nat.le_refl _), update_self]
      · change expandLoop _ _ _ i = _
        rw [hbehind i (by omega), update_of_ne (by omega)]

def quoted : CString := ⟨[97, 34, 98], by decide⟩

/-- Its buffer, which is used up by the escaped string and its terminator. -/
def quotedBuffer : Nat → UInt8 := fun i => quoted.chars.getD i 0

theorem jsonEscape_streams_quoted : (jsonEscape quotedBuffer 3 5).ret = 0 ∧ (jsonEscape quotedBuffer 3 5).len = 4 ∧
    ∀ i, 5 ≤ i → (jsonEscape quotedBuffer 3 5).str i = quotedBuffer i :=
  ⟨by decide, by decide, (jsonEscape_streams quoted quotedBuffer 5 ⟨rfl, rfl, rfl, rfl, trivial⟩).2.2⟩

end Zephyr
