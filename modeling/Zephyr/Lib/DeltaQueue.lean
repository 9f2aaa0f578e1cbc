import Mathlib.Algebra.Order.Ring.Int
/-!
# Queues of time differences

A set of deadlines stored as a list in which every entry holds only the difference to the entry
before it. `remaining l i` is what the list means for entry `i`: the sum of the differences up to
and including `i`. `insert`, `erase` and `advance` change one neighbour at most, and the theorems
below say what they do to `remaining`, which is all a client needs.
-/
namespace DeltaQueue

open List Option

variable {ι : Type*}

def ids (l : List (ι × ℤ)) : List ι := l.map Prod.fst

/-- Time left until entry `i`, `none` when it is not queued. -/
def remaining [DecidableEq ι] : List (ι × ℤ) → ι → Option ℤ
  | [], _ => none
  | (j, d) :: l, i => if j = i then some d else (remaining l i).map (d + ·)

/-- Queue `i` in front of the first entry that is not due earlier. -/
def insert (i : ι) : ℤ → List (ι × ℤ) → List (ι × ℤ)
  | t, [] => [(i, t)]
  | t, (j, d) :: l => if t ≤ d then (i, t) :: (j, d - t) :: l else (j, d) :: insert i (t - d) l

/-- Give `d` back to the first entry. -/
def addHead (d : ℤ) : List (ι × ℤ) → List (ι × ℤ)
  | [] => []
  | (j, e) :: l => (j, e + d) :: l

/-- Drop `i`; the entry behind it takes over its share. -/
def erase [DecidableEq ι] (i : ι) : List (ι × ℤ) → List (ι × ℤ)
  | [] => []
  | (j, d) :: l => if j = i then addHead d l else (j, d) :: erase i l

/-- Let `n` units pass: the entries that are due, in queue order, and the rest. -/
def advance : ℤ → List (ι × ℤ) → List ι × List (ι × ℤ)
  | _, [] => ([], [])
  | n, (j, d) :: l => if d ≤ n then (j :: (advance (n - d) l).1, (advance (n - d) l).2) else ([], (j, d - n) :: l)

/-- No difference is negative. -/
def Nonneg (l : List (ι × ℤ)) : Prop := ∀ p ∈ l, 0 ≤ p.2

@[simp] theorem ids_nil : ids ([] : List (ι × ℤ)) = [] := rfl

@[simp] theorem ids_cons (j : ι) (d : ℤ) (l : List (ι × ℤ)) : ids ((j, d) :: l) = j :: ids l := rfl

variable {l : List (ι × ℤ)} {i : ι}

theorem nonneg_cons {p : ι × ℤ} : Nonneg (p :: l) ↔ 0 ≤ p.2 ∧ Nonneg l := forall_mem_cons

theorem mem_ids_of_mem {p : ι × ℤ} (h : p ∈ l) : p.1 ∈ ids l := mem_map_of_mem h

@[simp] theorem ids_append (l r : List (ι × ℤ)) : ids (l ++ r) = ids l ++ ids r := by simp [ids]

theorem remaining_cons [DecidableEq ι] {j : ι} {d r : ℤ} :
    remaining ((j, d) :: l) i = some r ↔ j = i ∧ d = r ∨ j ≠ i ∧ ∃ r', remaining l i = some r' ∧ d + r' = r := by
  by_cases h : j = i <;> simp [remaining, h]

/-- `insert` cuts the queue in two and puts the new entry in between; what is in front of it is due earlier. -/
theorem ids_insert [DecidableEq ι] (l : List (ι × ℤ)) (i : ι) (t : ℤ) :
    ∃ l₁ l₂, ids l = l₁ ++ l₂ ∧ ids (insert i t l) = l₁ ++ i :: l₂ ∧ ∀ a ∈ l₁, ∀ r, remaining l a = some r → r < t := by
  fun_induction insert i t l with
  | case1 => exact ⟨[], [], rfl, rfl, by simp⟩
  | case2 t j d l => exact ⟨[], j :: ids l, rfl, rfl, by simp⟩
  | case3 t j d l htd ih =>
    obtain ⟨l₁, l₂, h1, h2, h3⟩ := ih
    refine ⟨j :: l₁, l₂, congrArg _ h1, congrArg _ h2, fun a ha r hr => ?_⟩
    obtain ⟨-, rfl⟩ | ⟨hja, r', hr', rfl⟩ := remaining_cons.1 hr
    · omega
    · have := h3 a ((mem_cons.1 ha).resolve_left (Ne.symm hja)) r' hr'
      omega

theorem mem_ids_insert {k : ι} {t : ℤ} : k ∈ ids (insert i t l) ↔ k = i ∨ k ∈ ids l := by
  classical
  obtain ⟨l₁, l₂, h1, h2, -⟩ := ids_insert l i t
  rw [h1, h2]; simp only [mem_append, mem_cons]; tauto

@[simp] theorem ids_addHead (d : ℤ) (l : List (ι × ℤ)) : ids (addHead d l) = ids l := by
  cases l with
  | nil => rfl
  | cons p l => rfl

theorem ids_advance (n : ℤ) (l : List (ι × ℤ)) : ids l = (advance n l).1 ++ ids (advance n l).2 := by
  fun_induction advance n l with
  | case1 => rfl
  | case2 n j d l h ih => exact congrArg (j :: ·) ih
  | case3 => rfl

theorem nonneg_insert {t : ℤ} (hl : Nonneg l) (ht : 0 ≤ t) : Nonneg (insert i t l) := by
  fun_induction insert i t l with
  | case1 => exact nonneg_cons.2 ⟨ht, hl⟩
  | case2 t j d l htd =>
    have := (nonneg_cons.1 hl).2
    exact nonneg_cons.2 ⟨ht, nonneg_cons.2 ⟨by simpa using htd, this⟩⟩
  | case3 t j d l htd ih =>
    obtain ⟨hd, hl⟩ := nonneg_cons.1 hl
    exact nonneg_cons.2 ⟨hd, ih hl (by omega)⟩

variable [DecidableEq ι]

theorem remaining_eq_none_iff : remaining l i = none ↔ i ∉ ids l := by
  induction l with
  | nil => simp [remaining]
  | cons p l ih =>
    obtain ⟨j, d⟩ := p
    by_cases h : j = i
    · simp [remaining, h]
    · simp [remaining, h, ih, Ne.symm h]

theorem mem_ids_iff : i ∈ ids l ↔ ∃ r, remaining l i = some r := by
  have := remaining_eq_none_iff (l := l) (i := i)
  rw [← ne_none_iff_exists', ne_eq, this, not_not]

theorem remaining_nonneg (hl : Nonneg l) {r : ℤ} (h : remaining l i = some r) : 0 ≤ r := by
  induction l generalizing r with
  | nil => simp [remaining] at h
  | cons p l ih =>
    obtain ⟨j, d⟩ := p
    obtain ⟨hd, hl⟩ := nonneg_cons.1 hl
    obtain ⟨-, rfl⟩ | ⟨-, r', hr', rfl⟩ := remaining_cons.1 h
    · exact hd
    · exact Int.add_nonneg hd (ih hl hr')

/-- Every entry of a queue is due no earlier than the first. -/
theorem head_le_remaining {j : ι} {d : ℤ} (hl : Nonneg ((j, d) :: l)) {r : ℤ}
    (h : remaining ((j, d) :: l) i = some r) : d ≤ r := by
  obtain ⟨-, rfl⟩ | ⟨-, r', hr', rfl⟩ := remaining_cons.1 h
  · exact le_refl _
  · exact Int.le_add_of_nonneg_right (remaining_nonneg (nonneg_cons.1 hl).2 hr')

/-- The queue is in the order of the deadlines. -/
theorem remaining_sorted (hl : Nonneg l) (hnd : (ids l).Nodup) :
    (ids l).Pairwise fun a b => ∀ ra rb, remaining l a = some ra → remaining l b = some rb → ra ≤ rb := by
  induction l with
  | nil => exact Pairwise.nil
  | cons p l ih =>
    obtain ⟨j, d⟩ := p
    obtain ⟨hj, hnd⟩ := nodup_cons.1 hnd
    refine pairwise_cons.2 ⟨fun b _ ra rb ha hb => ?_, ?_⟩
    · obtain rfl : d = ra := by simpa [remaining] using ha
      exact head_le_remaining hl hb
    · refine (ih (nonneg_cons.1 hl).2 hnd).imp_of_mem fun {a b} hma hmb hab ra rb ha hb => ?_
      -- neither is the head, and so its delta is in both sums
      obtain ⟨rfl, -⟩ | ⟨-, ra', ha', rfl⟩ := remaining_cons.1 ha
      · exact absurd hma hj
      obtain ⟨rfl, -⟩ | ⟨-, rb', hb', rfl⟩ := remaining_cons.1 hb
      · exact absurd hmb hj
      exact Int.add_le_add_left (hab ra' rb' ha' hb') d

/-! ## `insert` -/

theorem remaining_insert (hi : i ∉ ids l) (t : ℤ) (k : ι) :
    remaining (insert i t l) k = if k = i then some t else remaining l k := by
  fun_induction insert i t l with
  | case1 t => simp [remaining, eq_comm (a := i)]
  | case2 t j d l =>
    by_cases hk : k = i
    · simp [remaining, hk]
    · by_cases hj : j = k
      · simp [remaining, hk, Ne.symm hk, hj]
      · simp only [remaining, Ne.symm hk, if_false, hj, hk, Option.map_map]
        congr 1; funext x; simp; omega
  | case3 t j d l htd ih =>
    simp only [ids_cons, mem_cons, not_or] at hi
    simp only [remaining, ih hi.2]
    by_cases hk : k = i
    · subst hk; simp [Ne.symm hi.1]
    · simp [hk]

/-! ## `erase` -/

theorem remaining_addHead (d : ℤ) (l : List (ι × ℤ)) (k : ι) :
    remaining (addHead d l) k = (remaining l k).map (d + ·) := by
  cases l with
  | nil => rfl
  | cons p l =>
    obtain ⟨j, e⟩ := p
    by_cases h : j = k
    · simp [addHead, remaining, h, add_comm]
    · simp only [addHead, remaining, h, if_false, Option.map_map]
      congr 1; funext x; simp; omega

theorem ids_erase (l : List (ι × ℤ)) (i : ι) : ids (erase i l) = (ids l).erase i := by
  fun_induction erase i l with
  | case1 => rfl
  | case2 => simp
  | case3 j d l h ih => simp [ih, erase_cons_tail, h]

/-- `erase` at a known place. -/
theorem erase_append {l₁ l₂ : List (ι × ℤ)} (h : i ∉ ids l₁) (d : ℤ) :
    erase i (l₁ ++ (i, d) :: l₂) = l₁ ++ addHead d l₂ := by
  induction l₁ with
  | nil => simp [erase]
  | cons p l₁ ih =>
    obtain ⟨j, e⟩ := p
    simp only [ids_cons, mem_cons, not_or] at h
    simp [erase, Ne.symm h.1, ih h.2]

theorem remaining_erase (hnd : (ids l).Nodup) (i k : ι) :
    remaining (erase i l) k = if k = i then none else remaining l k := by
  fun_induction erase i l with
  | case1 => simp [remaining]
  | case2 d l =>
    have hi := (nodup_cons.1 hnd).1
    by_cases hk : k = i
    · subst hk
      simp [remaining_addHead, remaining_eq_none_iff.2 hi]
    · simp [remaining_addHead, remaining, hk, Ne.symm hk]
  | case3 j d l hji ih =>
    simp only [remaining, ih (nodup_cons.1 hnd).2]
    by_cases hk : k = i
    · subst hk; simp [hji]
    · simp [hk]

theorem nonneg_erase (hl : Nonneg l) : Nonneg (erase i l) := by
  fun_induction erase i l with
  | case1 => exact hl
  | case2 d l =>
    obtain ⟨hd, hl⟩ := nonneg_cons.1 hl
    cases l with
    | nil => exact hl
    | cons q l => exact nonneg_cons.2 ⟨Int.add_nonneg (nonneg_cons.1 hl).1 hd, (nonneg_cons.1 hl).2⟩
  | case3 j d l hji ih =>
    obtain ⟨hd, hl⟩ := nonneg_cons.1 hl
    exact nonneg_cons.2 ⟨hd, ih hl⟩

/-! ## `advance` -/

theorem mem_advance_iff (hl : Nonneg l) (hnd : (ids l).Nodup) (n : ℤ) (k : ι) :
    k ∈ (advance n l).1 ↔ ∃ r, remaining l k = some r ∧ r ≤ n := by
  fun_induction advance n l with
  | case1 => simp [remaining]
  | case2 n j d l h ih =>
    simp only [mem_cons, ih (nonneg_cons.1 hl).2 (nodup_cons.1 hnd).2, remaining]
    by_cases hj : j = k
    · simp [hj, h]
    · simp only [Ne.symm hj, false_or, hj, if_false, map_eq_some_iff]
      constructor
      · rintro ⟨r, hr, hrn⟩; exact ⟨d + r, ⟨r, hr, rfl⟩, by omega⟩
      · rintro ⟨_, ⟨r, hr, rfl⟩, hrn⟩; exact ⟨r, hr, by omega⟩
  | case3 n j d l h =>
    simp only [not_mem_nil, false_iff, not_exists, not_and, not_le]
    intro r hr
    have := head_le_remaining hl hr
    omega

theorem remaining_advance (hl : Nonneg l) (hnd : (ids l).Nodup) (n : ℤ) (k : ι) :
    remaining (advance n l).2 k = (remaining l k).bind fun r => if r ≤ n then none else some (r - n) := by
  fun_induction advance n l with
  | case1 => rfl
  | case2 n j d l h ih =>
    simp only [ih (nonneg_cons.1 hl).2 (nodup_cons.1 hnd).2, remaining]
    by_cases hj : j = k
    · subst hj; simp [remaining_eq_none_iff.2 (nodup_cons.1 hnd).1, h]
    · simp only [hj, if_false]
      cases hr : remaining l k with
      | none => simp
      | some r =>
        by_cases hrn : r ≤ n - d
        · have h2 : d + r ≤ n := by omega
          simp [hrn, h2]
        · have h2 : ¬ d + r ≤ n := by omega
          simp only [bind_some, hrn, if_false, map_some, h2]
          congr 1; omega
  | case3 n j d l h =>
    simp only [remaining]
    by_cases hj : j = k
    · simp [hj, h]
    · simp only [hj, if_false]
      cases hr : remaining l k with
      | none => simp
      | some r =>
        have h0 := remaining_nonneg (nonneg_cons.1 hl).2 hr
        have h2 : ¬ d + r ≤ n := by omega
        simp only [map_some, bind_some, h2, if_false]
        congr 1; omega

/-! ## Entries that are due together -/

/-- Of two entries that are due together, the one in front has the later stamp. -/
def LatestFirst (f : ι → Nat) (l : List (ι × ℤ)) : Prop :=
    (ids l).Pairwise fun a b => remaining l a = remaining l b → f b < f a

namespace LatestFirst

variable {f g : ι → Nat} {l : List (ι × ℤ)} {i : ι} {t : ℤ}

/-- The new entry has the latest stamp of all. -/
theorem insert (h : LatestFirst f l) (hi : i ∉ ids l) (hg : ∀ k, k ≠ i → g k = f k) (hlast : ∀ k ∈ ids l, f k < g i) :
    LatestFirst g (DeltaQueue.insert i t l) := by
  obtain ⟨l₁, l₂, h1, h2, hlt⟩ := ids_insert l i t
  have hne : ∀ k ∈ ids l, k ≠ i := fun k hk e => hi (e ▸ hk)
  have hold : ∀ k ∈ ids l, remaining (DeltaQueue.insert i t l) k = remaining l k ∧ g k = f k := fun k hk =>
    ⟨by rw [remaining_insert hi, if_neg (hne k hk)], hg k (hne k hk)⟩
  have hnew : remaining (DeltaQueue.insert i t l) i = some t := by rw [remaining_insert hi, if_pos rfl]
  unfold LatestFirst at h ⊢
  rw [h1, pairwise_append] at h
  rw [h1] at hold hlast
  rw [h2, pairwise_append, pairwise_cons]
  have hpair : ∀ {a b : ι}, a ∈ l₁ ++ l₂ → b ∈ l₁ ++ l₂ → (remaining l a = remaining l b → f b < f a) →
      remaining (DeltaQueue.insert i t l) a = remaining (DeltaQueue.insert i t l) b → g b < g a := by
    intro a b ha hb hab
    rw [(hold a ha).1, (hold b hb).1, (hold a ha).2, (hold b hb).2]
    exact hab
  refine ⟨h.1.imp_of_mem fun ha hb => hpair (by simp [ha]) (by simp [hb]), ⟨fun b hb _ => ?_,
    h.2.1.imp_of_mem fun ha hb => hpair (by simp [ha]) (by simp [hb])⟩, fun a ha b hb hab => ?_⟩
  · rw [(hold b (by simp [hb])).2]
    exact hlast b (by simp [hb])
  · rcases mem_cons.1 hb with rfl | hb
    · rw [(hold a (by simp [ha])).1, hnew] at hab
      exact absurd (hlt a ha t hab) (lt_irrefl _)
    · exact hpair (by simp [ha]) (by simp [hb]) (h.2.2 a ha b hb) hab

/-- What is left of a queue, with the same differences between its entries. -/
theorem sublist {l' : List (ι × ℤ)} (h : LatestFirst f l) (hs : (ids l').Sublist (ids l)) (hg : ∀ k ∈ ids l', g k = f k)
    (hr : ∀ a ∈ ids l', ∀ b ∈ ids l', remaining l' a = remaining l' b → remaining l a = remaining l b) :
    LatestFirst g l' := by
  refine (List.Pairwise.sublist hs h).imp_of_mem fun {a b} ha hb hab heq => ?_
  rw [hg a ha, hg b hb]
  exact hab (hr a ha b hb heq)

theorem erase (h : LatestFirst f l) (hnd : (ids l).Nodup) : LatestFirst f (DeltaQueue.erase i l) := by
  have hids := ids_erase l i
  have hne : ∀ k ∈ ids (DeltaQueue.erase i l), k ≠ i := by
    rintro k hk rfl
    rw [hids] at hk
    exact hnd.not_mem_erase hk
  refine h.sublist (by rw [hids]; exact erase_sublist) (fun _ _ => rfl) fun a ha b hb hab => ?_
  rwa [remaining_erase hnd, remaining_erase hnd, if_neg (hne a ha), if_neg (hne b hb)] at hab

theorem advance (h : LatestFirst f l) (hl : Nonneg l) (hnd : (ids l).Nodup) {n : ℤ}
    (hg : ∀ k ∈ ids (DeltaQueue.advance n l).2, g k = f k) :
    LatestFirst g (DeltaQueue.advance n l).2 := by
  refine h.sublist (by rw [ids_advance n l]; exact sublist_append_right _ _) hg fun a ha b hb hab => ?_
  obtain ⟨ra, ha⟩ := mem_ids_iff.1 ha
  obtain ⟨rb, hb⟩ := mem_ids_iff.1 hb
  rw [ha, hb, Option.some.injEq] at hab
  rw [remaining_advance hl hnd, bind_eq_some_iff] at ha hb
  obtain ⟨qa, hqa, ha⟩ := ha
  obtain ⟨qb, hqb, hb⟩ := hb
  split at ha
  · cases ha
  · split at hb
    · cases hb
    · simp only [Option.some.injEq] at ha hb
      rw [hqa, hqb]
      congr 1
      omega

end LatestFirst

end DeltaQueue
