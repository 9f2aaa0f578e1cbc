import Mathlib.Algebra.Order.Ring.Int
import Mathlib.Data.List.Basic
import Mathlib.Tactic.Common
/-!
# Nested priority inheritance

Tasks hold locks, the one that was acquired last in front (`stack`), and want locks that others hold. A smaller
number is a higher priority. For each lock its holder keeps the priority it had when it acquired it (`orig`) and
goes back to that when it releases the lock, so that locks have to be released in the order of the stack.

`Sound`: no holder is lower than those that want one of its locks, up to a `ceiling`; nor will it be when it releases
the locks that it acquired later; and without locks a task has its own priority.
-/
namespace Inheritance

open Function List

structure State (T M : Type*) where
  prio : T → ℤ
  own : T → ℤ
  stack : T → List M
  orig : M → ℤ
  wants : M → T → Prop

variable {T M : Type*} [DecidableEq T] [DecidableEq M] {ceiling : ℤ} {s : State T M} {a b o t y : T} {m m' : M} {p : ℤ}

/-- The locks that are in front of `m`, acquired later. -/
def later (m : M) (l : List M) : List M := l.takeWhile (· ≠ m)

variable {l : List M}

@[simp] theorem later_self : later m (m :: l) = [] := by simp [later]

theorem later_cons (h : m' ≠ m) : later m (m' :: l) = m' :: later m l := by simp [later, h]

theorem mem_of_mem_later (h : m' ∈ later m l) : m' ∈ l := (takeWhile_subset _) h

/-- Of two locks in a stack one is in front of the other. -/
theorem later_or_later (hm : m ∈ l) (hm' : m' ∈ l) (hne : m' ≠ m) : m' ∈ later m l ∨ m ∈ later m' l := by
  induction l with
  | nil => cases hm
  | cons x l ih =>
    by_cases hx : x = m
    · right
      rw [later_cons (by rw [hx]; exact Ne.symm hne), hx]
      exact mem_cons_self
    · rw [later_cons hx]
      by_cases hx' : x = m'
      · left
        rw [hx']
        exact mem_cons_self
      · rw [later_cons hx']
        have hm2 := (mem_cons.1 hm).resolve_left (Ne.symm hx)
        have hm2' := (mem_cons.1 hm').resolve_left (Ne.symm hx')
        exact (ih hm2 hm2').imp (mem_cons_of_mem _) (mem_cons_of_mem _)

/-- The task may come to the priority `p` though it wants locks itself. -/
def MayRaise (ceiling : ℤ) (s : State T M) (o : T) (p : ℤ) : Prop :=
  ∀ a m, m ∈ s.stack a → s.wants m o → s.prio a ≤ max p ceiling ∧ ∀ m' ∈ later m (s.stack a), s.orig m' ≤ max p ceiling

structure Sound (ceiling : ℤ) (s : State T M) : Prop where
  nodup : ∀ a, (s.stack a).Nodup
  excl : ∀ {a b m}, m ∈ s.stack a → m ∈ s.stack b → a = b
  high : ∀ {a m y}, m ∈ s.stack a → s.wants m y → s.prio a ≤ max (s.prio y) ceiling
  later : ∀ {a m m' y}, m ∈ s.stack a → m' ∈ later m (s.stack a) → s.wants m y → s.orig m' ≤ max (s.prio y) ceiling
  bottom : ∀ {a m}, (s.stack a).getLast? = some m → s.orig m = s.own a
  empty : ∀ {a}, s.stack a = [] → s.prio a = s.own a

namespace Sound

omit [DecidableEq T] in
/-- Some tasks want less. -/
theorem mono (h : Sound ceiling s) {wants : M → T → Prop}
    (hw : ∀ m y, wants m y → s.wants m y) : Sound ceiling { s with wants := wants } :=
  ⟨h.nodup, h.excl, fun hm hy => h.high hm (hw _ _ hy), fun hm hm' hy => h.later hm hm' (hw _ _ hy), h.bottom, h.empty⟩

omit [DecidableEq T] in
/-- A task wants a lock that nobody has, or that is held by a task of at least its priority. -/
theorem join (h : Sound ceiling s) {wants : M → T → Prop} (hw : ∀ m' y', wants m' y' → s.wants m' y' ∨ m' = m ∧ y' = y)
    (hhigh : ∀ a, m ∈ s.stack a → s.prio a ≤ max (s.prio y) ceiling ∧ ∀ m' ∈ Inheritance.later m (s.stack a),
      s.orig m' ≤ max (s.prio y) ceiling) :
    Sound ceiling { s with wants := wants } := by
  refine ⟨h.nodup, h.excl, fun {a m' y'} hm hy => ?_, fun {a m1 m' y'} hm hm' hy => ?_, h.bottom, h.empty⟩
  · rcases hw m' y' hy with hold | ⟨rfl, rfl⟩
    · exact h.high hm hold
    · exact (hhigh a hm).1
  · rcases hw m1 y' hy with hold | ⟨rfl, rfl⟩
    · exact h.later hm hm' hold
    · exact (hhigh a hm).2 m' hm'

/-- A holder gets the priority `p`. -/
theorem reprio (h : Sound ceiling s) (hne : s.stack o ≠ [] ∨ p = s.prio o)
    (hhigh : ∀ m y, m ∈ s.stack o → s.wants m y → y ≠ o → p ≤ max (s.prio y) ceiling)
    (hraise : p < s.prio o → MayRaise ceiling s o p) :
    Sound ceiling { s with prio := update s.prio o p } := by
  -- a task that wants a lock wants it at `p` as it did before
  have hwant : ∀ a m, m ∈ s.stack a → s.wants m o → s.prio a ≤ max p ceiling ∧
    ∀ m' ∈ Inheritance.later m (s.stack a), s.orig m' ≤ max p ceiling := by
    intro a m hm hy
    by_cases hlt : p < s.prio o
    · exact hraise hlt a m hm hy
    · have hle : max (s.prio o) ceiling ≤ max p ceiling := by omega
      exact ⟨(h.high hm hy).trans hle, fun m' hm' => (h.later hm hm' hy).trans hle⟩
  refine ⟨h.nodup, h.excl, fun {a m y} hm hy => ?_, fun {a m m' y} hm hm' hy => ?_, h.bottom, fun {a} ha => ?_⟩
  · by_cases hyo : y = o
    · subst hyo
      by_cases hao : a = y
      · simp [hao]
      · simpa [hao] using (hwant a m hm hy).1
    · by_cases hao : a = o
      · subst hao
        simpa [hyo] using hhigh m y hm hy hyo
      · simpa [hao, hyo] using h.high hm hy
  · by_cases hyo : y = o
    · subst hyo
      simpa using (hwant a m hm hy).2 m' hm'
    · simpa [hyo] using h.later hm hm' hy
  · by_cases hao : a = o
    · subst hao
      rcases hne with hne | hp
      · exact absurd ha hne
      · simpa [hp] using h.empty ha
    · simpa [hao] using h.empty ha

/-- A task gets a lock that nobody has. If it had none, its own priority is what it has now. -/
theorem acquire (h : Sound ceiling s) (hfree : ∀ a, m ∉ s.stack a)
    (hhigh : ∀ y, s.wants m y → s.prio t ≤ max (s.prio y) ceiling) :
    Sound ceiling { s with
      stack := update s.stack t (m :: s.stack t)
      orig := update s.orig m (s.prio t)
      own := if s.stack t = [] then update s.own t (s.prio t) else s.own } := by
  have hown : (if s.stack t = [] then update s.own t (s.prio t) else s.own) = s.own := by
    split
    · rw [h.empty (by assumption), update_eq_self]
    · rfl
  rw [hown]
  have horig : ∀ {a m'}, m' ∈ s.stack a → update s.orig m (s.prio t) m' = s.orig m' := fun {a m'} hm' =>
    update_of_ne (by rintro rfl; exact hfree a hm') _ _
  have hin : ∀ {a m'}, m' ∈ update s.stack t (m :: s.stack t) a → m' ∈ s.stack a ∨ m' = m ∧ a = t := by
    intro a m' hm'
    by_cases hat : a = t
    · subst hat
      simpa [or_comm] using hm'
    · exact .inl (by simpa [hat] using hm')
  refine ⟨fun a => ?_, fun {a b m1} ha hb => ?_, fun {a m1 y} hm hy => ?_, fun {a m1 m' y} hm hm' hy => ?_,
    fun {a m1} hlast => ?_, fun {a} ha => ?_⟩
  · by_cases hat : a = t
    · subst hat
      simpa using ⟨hfree a, h.nodup a⟩
    · simpa [hat] using h.nodup a
  · rcases hin ha with ha' | ⟨rfl, rfl⟩ <;> rcases hin hb with hb' | ⟨he, rfl⟩
    · exact h.excl ha' hb'
    · exact absurd (he ▸ ha') (hfree a)
    · exact absurd hb' (hfree b)
    · rfl
  · rcases hin hm with hm' | ⟨rfl, rfl⟩
    · exact h.high hm' hy
    · exact hhigh y hy
  · by_cases hat : a = t
    · subst hat
      simp only [update_self] at hm hm'
      by_cases hm1 : m = m1
      · subst hm1
        simp at hm'
      · have hmem := (mem_cons.1 hm).resolve_left (Ne.symm hm1)
        rw [later_cons hm1] at hm'
        rcases mem_cons.1 hm' with rfl | hm'
        · simpa using h.high hmem hy
        · exact (horig (mem_of_mem_later hm')).trans_le (h.later hmem hm' hy)
    · simp only [update_of_ne hat] at hm hm'
      exact (horig (mem_of_mem_later hm')).trans_le (h.later hm hm' hy)
  · by_cases hat : a = t
    · subst hat
      simp only [update_self] at hlast
      cases hs : s.stack a with
      | nil =>
        obtain rfl : m = m1 := by simpa [hs] using hlast
        simpa using h.empty hs
      | cons x l =>
        rw [hs, List.getLast?_cons_cons, ← hs] at hlast
        exact (horig (mem_of_getLast? hlast)).trans (h.bottom hlast)
    · simp only [update_of_ne hat] at hlast
      exact (horig (mem_of_getLast? hlast)).trans (h.bottom hlast)
  · by_cases hat : a = t
    · subst hat
      simp at ha
    · simp only [update_of_ne hat] at ha
      exact h.empty ha

/-- A task that wants nothing releases the lock it acquired last. -/
theorem release (h : Sound ceiling s) (hstack : s.stack t = m :: l) (hwants : ∀ m', ¬ s.wants m' t) :
    Sound ceiling { s with stack := update s.stack t l, prio := update s.prio t (s.orig m) } := by
  have hsub : ∀ {a m'}, m' ∈ update s.stack t l a → m' ∈ s.stack a := by
    intro a m' hm'
    by_cases hat : a = t
    · subst hat
      rw [hstack]
      simp only [update_self] at hm'
      exact mem_cons_of_mem _ hm'
    · simpa [hat] using hm'
  have hnd := h.nodup t
  rw [hstack, nodup_cons] at hnd
  -- `m` was acquired later than all that is left
  have hfront : ∀ {m'}, m' ∈ l → m' ∈ s.stack t ∧ Inheritance.later m' (s.stack t) = m :: Inheritance.later m' l := by
    intro m' hm'
    rw [hstack]
    exact ⟨mem_cons_of_mem _ hm', later_cons (by rintro rfl; exact hnd.1 hm')⟩
  refine ⟨fun a => ?_, fun ha hb => h.excl (hsub ha) (hsub hb), fun {a m' y} hm hy => ?_,
    fun {a m1 m' y} hm hm' hy => ?_, fun {a m'} hlast => ?_, fun {a} ha => ?_⟩
  · by_cases hat : a = t
    · subst hat
      simpa using hnd.2
    · simpa [hat] using h.nodup a
  · have hyt : y ≠ t := by rintro rfl; exact hwants m' hy
    by_cases hat : a = t
    · subst hat
      simp only [update_self] at hm
      obtain ⟨hmem, hlater⟩ := hfront hm
      have hm1 : m ∈ Inheritance.later m' (s.stack a) := by
        rw [hlater]
        exact mem_cons_self
      simpa [hyt] using h.later hmem hm1 hy
    · simpa [hat, hyt] using h.high (hsub hm) hy
  · have hyt : y ≠ t := by rintro rfl; exact hwants m1 hy
    by_cases hat : a = t
    · subst hat
      simp only [update_self] at hm hm'
      obtain ⟨hmem, hlater⟩ := hfront hm
      simpa [hyt] using h.later hmem (by rw [hlater]; exact mem_cons_of_mem _ hm') hy
    · simp only [update_of_ne hat] at hm hm'
      simpa [hyt] using h.later hm hm' hy
  · by_cases hat : a = t
    · subst hat
      simp only [update_self] at hlast
      cases l with
      | nil => simp at hlast
      | cons x l =>
        refine h.bottom ?_
        rw [hstack, List.getLast?_cons_cons]
        exact hlast
    · simp only [update_of_ne hat] at hlast
      exact h.bottom hlast
  · by_cases hat : a = t
    · subst hat
      simp only [update_self] at ha ⊢
      subst ha
      exact h.bottom (by rw [hstack]; rfl)
    · simp only [update_of_ne hat] at ha ⊢
      exact h.empty ha

/-- A task that holds and wants nothing gets another priority of its own. -/
theorem setOwn (h : Sound ceiling s) (hstack : s.stack t = []) (hwants : ∀ m, ¬ s.wants m t) :
    Sound ceiling { s with prio := update s.prio t p, own := update s.own t p } := by
  have hat : ∀ {a m}, m ∈ s.stack a → a ≠ t := by
    rintro a m hm rfl
    simp [hstack] at hm
  refine ⟨h.nodup, h.excl, fun {a m y} hm hy => ?_, fun {a m m' y} hm hm' hy => ?_, fun {a m} hlast => ?_,
    fun {a} ha => ?_⟩
  · have hyt : y ≠ t := by rintro rfl; exact hwants m hy
    simpa [hat hm, hyt] using h.high hm hy
  · have hyt : y ≠ t := by rintro rfl; exact hwants m hy
    simpa [hyt] using h.later hm hm' hy
  · simpa [hat (mem_of_getLast? hlast)] using h.bottom hlast
  · by_cases ha' : a = t
    · simp [ha']
    · simpa [ha'] using h.empty ha

end Sound

end Inheritance
