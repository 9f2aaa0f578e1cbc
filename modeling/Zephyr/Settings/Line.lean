import Mathlib.Data.List.TakeWhile
import Zephyr.Lib.Memory
/-!
# Lines of settings (subsys/settings/src/settings_line.c)

A setting is stored as `name=value`. The parser looks at every character once, and writes at most the one it looks
at: it is a walk over the characters of the line that gives them back, with the places of name and value. A line is
shorter than `int` can tell.
-/
namespace Zephyr

open Memory List

def isspace (c : UInt8) : Bool := c == 32 || c - 9 < 5

inductive LineState where
  | findName
  | findNameEnd
  | findVal
  | findValEnd
deriving DecidableEq

/-- Where the walk ends: the characters behind, and `*namep` and `*valp`. -/
structure LineWalk where
  state : LineState
  namep : Option Nat
  valp : Option Nat
  buf : List UInt8
deriving DecidableEq

def LineWalk.cons (c : UInt8) (w : LineWalk) : LineWalk := { w with buf := c :: w.buf }

def lineLoop : LineState → Nat → Option Nat → Option Nat → List UInt8 → LineWalk
  | state, _, namep, valp, [] => ⟨state, namep, valp, []⟩
  | .findName, cp, namep, valp, c :: cs =>
    if isspace c then (lineLoop .findName (cp + 1) namep valp cs).cons c
    else (lineLoop .findNameEnd (cp + 1) (some cp) valp cs).cons c
  | .findNameEnd, cp, namep, valp, c :: cs =>
    if c = 61 then (lineLoop .findVal (cp + 1) namep valp cs).cons 0
    else (lineLoop .findNameEnd (cp + 1) namep valp cs).cons (if isspace c then 0 else c)
  | .findVal, cp, namep, valp, c :: cs =>
    if isspace c then (lineLoop .findVal (cp + 1) namep valp cs).cons c
    else (lineLoop .findValEnd (cp + 1) namep (some cp) cs).cons c
  | .findValEnd, cp, namep, valp, c :: cs =>
    (lineLoop .findValEnd (cp + 1) namep valp cs).cons (if isspace c then 0 else c)

/-- The string at a place of the buffer. -/
def stringAt (buf : List UInt8) (p : Nat) : List UInt8 := (buf.drop p).takeWhile (· != 0)

structure ParsedLine where
  ret : ℤ
  name : Option (List UInt8)
  val : Option (List UInt8)
deriving DecidableEq

def settingsLineParse (buf : List UInt8) : ParsedLine :=
  let w := lineLoop .findName 0 none none buf
  ⟨if w.state = .findValEnd ∨ w.state = .findVal then 0 else -1, w.namep.map (stringAt w.buf),
    w.valp.map (stringAt w.buf)⟩

/-- The line in `dst`, if there is space for it. -/
def settingsLineMake (dlen : ℤ) (name : CString) (value : Option CString) : Option (List UInt8) :=
  let val := (value.map CString.chars).getD []
  if dlen < name.chars.length + val.length + 2 then none else some (name.chars ++ 61 :: val)

/-! ## What is parsed -/

section

variable {cp : Nat} {namep valp : Option Nat} {s rest : List UInt8} {c : UInt8}

theorem lineLoop_name (hs : ∀ c ∈ s, c ≠ 61 ∧ isspace c = false) :
    lineLoop .findNameEnd cp namep valp (s ++ 61 :: rest) =
      { lineLoop .findVal (cp + s.length + 1) namep valp rest with
        buf := s ++ 0 :: (lineLoop .findVal (cp + s.length + 1) namep valp rest).buf } := by
  induction s generalizing cp with
  | nil => rfl
  | cons c s ih =>
    obtain ⟨hne, hsp⟩ := hs c mem_cons_self
    rw [cons_append, lineLoop, if_neg hne, hsp, ih fun x hx => hs x (mem_cons_of_mem _ hx)]
    simp only [LineWalk.cons, length_cons, Nat.add_comm s.length 1, ← Nat.add_assoc, cons_append,
      Bool.false_eq_true, if_false]

theorem lineLoop_valEnd (s : List UInt8) :
    lineLoop .findValEnd cp namep valp s = ⟨.findValEnd, namep, valp, s.map fun c => if isspace c then 0 else c⟩ := by
  induction s generalizing cp with
  | nil => rfl
  | cons c s ih => rw [lineLoop, ih, map_cons, LineWalk.cons]

/-- The value begins with the first character that is no whitespace. -/
theorem lineLoop_val (s : List UInt8) :
    lineLoop .findVal cp namep valp s =
      match s.dropWhile isspace with
      | [] => ⟨.findVal, namep, valp, s⟩
      | c :: rest => ⟨.findValEnd, namep, some (cp + (s.takeWhile isspace).length),
        s.takeWhile isspace ++ c :: rest.map fun c => if isspace c then 0 else c⟩ := by
  induction s generalizing cp with
  | nil => rfl
  | cons c s ih =>
    rw [lineLoop]
    cases hsp : isspace c with
    | false => simp [hsp, lineLoop_valEnd, LineWalk.cons]
    | true =>
      rw [if_pos rfl, ih, dropWhile_cons_of_pos hsp, takeWhile_cons_of_pos hsp]
      cases s.dropWhile isspace with
      | nil => rfl
      | cons d rest => simp only [LineWalk.cons, length_cons, Nat.add_comm _ 1, ← Nat.add_assoc, cons_append]

theorem takeWhile_blanked (h : 0 ∉ s) :
    ((s.map fun c => if isspace c then 0 else c).takeWhile (· != 0)) = s.takeWhile fun c => !isspace c := by
  induction s with
  | nil => rfl
  | cons c s ih =>
    rw [mem_cons, not_or] at h
    cases hsp : isspace c with
    | false => simp [hsp, Ne.symm h.1, ih h.2]
    | true => simp [hsp]

end

/-- What is left of a value: it begins behind whitespace, and ends before the next one. -/
def loadedValue (value : List UInt8) : Option (List UInt8) :=
  let v := (value.dropWhile isspace).takeWhile fun c => !isspace c
  if v = [] then none else some v

/-- **`settings_line_parse` (settings_line.c:14) of a line.** -/
theorem settingsLineParse_make {dlen : ℤ} {name : CString} {value : Option CString} {line : List UInt8}
    (hne : name.chars ≠ [])
    (hname : ∀ c ∈ name.chars, c ≠ 61 ∧ isspace c = false) (hmake : settingsLineMake dlen name value = some line) :
    settingsLineParse line = ⟨0, some name.chars, value.bind fun v => loadedValue v.chars⟩ := by
  obtain ⟨val, hval, hnul⟩ : ∃ val, (value.map CString.chars).getD [] = val ∧ 0 ∉ val := by
    cases value with
    | none => exact ⟨[], rfl, by simp⟩
    | some v => exact ⟨v.chars, rfl, v.noNul⟩
  have hloaded : (value.bind fun v => loadedValue v.chars) = loadedValue val := by
    subst hval
    cases value <;> rfl
  rw [settingsLineMake, hval] at hmake
  split at hmake
  · cases hmake
  obtain rfl := Option.some.inj hmake
  rw [hloaded]
  have hzero := name.noNul
  generalize name.chars = nm at *
  have hloop : lineLoop .findName 0 none none (nm ++ 61 :: val) =
      { lineLoop .findVal (nm.length + 1) (some 0) none val with
        buf := nm ++ 0 :: (lineLoop .findVal (nm.length + 1) (some 0) none val).buf } := by
    obtain ⟨n, ns, rfl⟩ := exists_cons_of_ne_nil hne
    rw [cons_append, lineLoop, (hname n mem_cons_self).2, lineLoop_name fun c hc =>
      hname c (mem_cons_of_mem _ hc), length_cons, Nat.add_comm ns.length 1, Nat.zero_add]
    rfl
  -- the name ends at the 0 that has taken the place of `=`
  have hnameAt : ∀ rest, stringAt (nm ++ 0 :: rest) 0 = nm := by
    intro rest
    rw [stringAt, drop_zero, takeWhile_append_of_pos fun c hc => bne_iff_ne.2 fun h : c = 0 => hzero (h ▸ hc)]
    simp
  have hvalAt : ∀ front rest : List UInt8, stringAt (nm ++ 0 :: (front ++ rest))
    (nm.length + 1 + front.length) = rest.takeWhile (· != 0) := by
    intro front rest
    have hsplit : nm ++ 0 :: (front ++ rest) = (nm ++ 0 :: front) ++ rest := by simp
    rw [stringAt, hsplit, drop_left' (by simp only [length_append, length_cons]; omega)]
  rw [settingsLineParse, hloop, lineLoop_val]
  cases hdrop : val.dropWhile isspace with
  | nil => simp [loadedValue, hdrop, hnameAt]
  | cons c rest =>
    have hmem : ∀ x ∈ c :: rest, x ∈ val := fun x hx => (dropWhile_sublist _).subset (hdrop ▸ hx)
    have hc : isspace c = false := by
      have := head?_dropWhile_not isspace val
      simpa [hdrop] using this
    have hblank := takeWhile_blanked fun h => hnul (hmem 0 h)
    rw [map_cons, hc] at hblank
    simp only [Bool.false_eq_true, if_false] at hblank
    simp [loadedValue, hdrop, hnameAt, hvalAt, hblank, hc]

theorem lineLoop_namep {state : LineState} {cp : Nat} {namep valp : Option Nat} {s : List UInt8}
    (hstate : state ≠ .findName) :
    (lineLoop state cp namep valp s).namep = namep := by
  induction s generalizing state cp valp with
  | nil => cases state <;> rfl
  | cons c s ih =>
    cases state with
    | findName => exact absurd rfl hstate
    | findNameEnd | findVal =>
      rw [lineLoop]
      split <;> exact ih nofun
    | findValEnd => exact ih nofun

/-- The name of a line that has none is read from the `=` on. -/
theorem settingsLineParse_noName {dlen : ℤ} {name : CString} {value : Option CString} {line : List UInt8}
    (hne : name.chars = [])
    (hmake : settingsLineMake dlen name value = some line) : (settingsLineParse line).name ≠ some [] := by
  rw [settingsLineMake, hne] at hmake
  split at hmake
  · cases hmake
  obtain rfl := Option.some.inj hmake
  have hequals : isspace 61 = false := by decide
  simp [settingsLineParse, lineLoop, hequals, LineWalk.cons, lineLoop_namep, stringAt]

/-- **A line that is made is parsed to name and value** if and only if the name is not empty and there is no
whitespace in the value; `NULL` stands for no value and for an empty one. -/
theorem settingsLine_roundTrip (dlen : ℤ) (name : CString) (value : Option CString) (line : List UInt8)
    (hname : ∀ c ∈ name.chars, c ≠ 61 ∧ isspace c = false) (hmake : settingsLineMake dlen name value = some line) :
    settingsLineParse line = ⟨0, some name.chars, value.bind fun v => if v.chars = [] then none else some v.chars⟩ ↔
      name.chars ≠ [] ∧ ∀ v ∈ value, ∀ c ∈ v.chars, isspace c = false := by
  by_cases hne : name.chars = []
  · refine ⟨fun h => absurd (congrArg ParsedLine.name h) ?_, fun h => absurd hne h.1⟩
    rw [hne]
    exact settingsLineParse_noName hne hmake
  rw [settingsLineParse_make hne hname hmake, ParsedLine.mk.injEq]
  simp only [true_and, ne_eq, hne, not_false_eq_true]
  cases value with
  | none => simp
  | some v =>
    simp only [Option.bind_some, Option.mem_some_iff, forall_eq', loadedValue]
    constructor
    · intro h c hc
      rw [if_neg (ne_nil_of_mem hc)] at h
      split at h
      · cases h
      · rw [← Option.some.inj h] at hc
        simpa using mem_takeWhile_imp hc
    · intro h
      have hdrop : v.chars.dropWhile isspace = v.chars := by
        cases hv : v.chars with
        | nil => rfl
        | cons c s => rw [dropWhile_cons_of_neg (by simp [h c (hv ▸ mem_cons_self)])]
      have htake : (v.chars.takeWhile fun c => !isspace c) = v.chars := takeWhile_eq_self_iff.2 fun c hc => by
        simp [h c hc]
      rw [hdrop, htake]

/-- The setting `a` with the value `b=c`. -/
theorem settingsLine_roundTrip_equals :
    settingsLineParse [97, 61, 98, 61, 99] = ⟨0, some [97], some [98, 61, 99]⟩ :=
  (settingsLine_roundTrip 6 ⟨[97], by decide⟩ (some ⟨[98, 61, 99], by decide⟩) _ (by decide +kernel) rfl).2
  (by decide +kernel)

/-- **The value `b c` is loaded as `b`**; and a line with an empty name is refused. -/
theorem value_with_blank_is_cut :
    settingsLineMake 100 ⟨[97], by decide⟩ (some ⟨[98, 32, 99], by decide⟩) = some [97, 61, 98, 32, 99] ∧
    settingsLineParse [97, 61, 98, 32, 99] = ⟨0, some [97], some [98]⟩ ∧
    settingsLineMake 100 ⟨[], by decide⟩ (some ⟨[98], by decide⟩) = some [61, 98] ∧
    (settingsLineParse [61, 98]).ret = -1 := by
  decide

end Zephyr
