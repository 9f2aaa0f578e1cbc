import Mathlib.Data.Option.Basic
/-!
# Runs of a machine whose steps can fail

`step s op` is the state after `op`, or `none` where the machine faults. A run does its operations in
turn; `Along ok` says that a condition holds before each of them.
-/
namespace Runs

variable {S O : Type*} {step : S → O → Option S} {ok : S → O → Prop} {I : S → Prop} {s s' : S} {ops : List O}

def run (step : S → O → Option S) (s : S) (ops : List O) : Option S := ops.foldlM step s

/-- `ok` holds before each step of the run. -/
def Along (step : S → O → Option S) (ok : S → O → Prop) : S → List O → Prop
  | _, [] => True
  | s, op :: ops => ok s op ∧ ∀ s' ∈ step s op, Along step ok s' ops

instance decidableAlong (step : S → O → Option S) (ok : S → O → Prop) [∀ s op, Decidable (ok s op)] :
    (s : S) → (ops : List O) → Decidable (Along step ok s ops)
  | _, [] => isTrue trivial
  | s, op :: ops => @instDecidableAnd _ _ _ (@Option.decidableForallMem _ _
    (fun s' => decidableAlong step ok s' ops) (step s op))

theorem Along.imp_mem {ok' : S → O → Prop} (h : Along step ok s ops)
    (himp : ∀ s, ∀ op ∈ ops, ok s op → ok' s op) : Along step ok' s ops := by
  induction ops generalizing s with
  | nil => trivial
  | cons op ops ih =>
    exact ⟨himp s op List.mem_cons_self h.1, fun s' hs' => ih (h.2 s' hs') fun s o ho =>
      himp s o (List.mem_cons_of_mem _ ho)⟩

@[simp] theorem run_nil : run step s [] = some s := rfl

theorem run_cons {op : O} : run step s (op :: ops) = (step s op).bind fun s1 => run step s1 ops := by
  rw [run, List.foldlM_cons]
  rfl

/-- If a permitted step from a state of `I` ends in one, so does a permitted run. -/
theorem run_total (hstep : ∀ s op, I s → ok s op → ∃ s', step s op = some s' ∧ I s') (h : I s)
    (hall : Along step ok s ops) :
    ∃ s', run step s ops = some s' ∧ I s' := by
  induction ops generalizing s with
  | nil => exact ⟨s, rfl, h⟩
  | cons op ops ih =>
    obtain ⟨s1, hs1, h1⟩ := hstep s op h hall.1
    obtain ⟨s2, hs2, h2⟩ := ih h1 (hall.2 s1 hs1)
    exact ⟨s2, by rw [run_cons, hs1]; exact hs2, h2⟩

/-- If a permitted step that does not fault keeps `I`, so does a permitted run. -/
theorem run_inv (hstep : ∀ s op s', I s → ok s op → step s op = some s' → I s') (h : I s) (hall : Along step ok s ops)
    (hrun : run step s ops = some s') : I s' := by
  induction ops generalizing s with
  | nil =>
    obtain rfl : s = s' := by simpa using hrun
    exact h
  | cons op ops ih =>
    rw [run_cons] at hrun
    obtain ⟨s1, hs1, hrest⟩ := Option.bind_eq_some_iff.1 hrun
    exact ih (hstep s op s1 h hall.1 hs1) (hall.2 s1 hs1) hrest

/-- A state at the end of a run, of which `P` is checked and `R` follows. -/
theorem exists_end {o : Option S} {P R : S → Prop} (h : ∃ s ∈ o, P s) (hR : ∀ s, o = some s → P s → R s) :
    ∃ s, o = some s ∧ R s := by
  obtain ⟨s, hs, hP⟩ := h
  exact ⟨s, hs, hR s hs hP⟩

theorem at_end {o : Option S} {R : S → Prop} (h : ∃ s, o = some s ∧ R s) (hs : o = some s) : R s := by
  obtain ⟨s', hs', hR⟩ := h
  exact Option.some.inj (hs'.symm.trans hs) ▸ hR

end Runs
