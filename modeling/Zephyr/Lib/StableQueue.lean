import Mathlib.Data.List.Sort
import Mathlib.Order.Compare
/-!
# Queues in order of priority, first come first served

A queue is a list in order of a priority `prio` (smallest first). A newcomer goes behind everyone of
its own priority and in front of everyone of a larger one (`enq`). `Follows arr l` says what that is
for: `l` is the list `arr` of the arrivals, brought into order with ties as they came.
-/
namespace StableQueue

open Function List

variable {α κ : Type*} [LinearOrder κ] (prio : α → κ)

/-- `x` goes in front of the first one that it beats. -/
def enq (x : α) (l : List α) : List α := l.orderedInsert (fun a b => prio a < prio b) x

def Ordered (l : List α) : Prop := l.Pairwise fun a b => prio a ≤ prio b

/-- The first of those of smallest priority. -/
def first (arr : List α) : Option α := arr.find? fun x => arr.all fun y => prio x ≤ prio y

structure Follows (arr l : List α) : Prop where
  ordered : Ordered prio l
  ties : ∀ k, l.filter (prio · = k) = arr.filter (prio · = k)

variable {prio} {x : α} {l arr : List α}

@[simp] theorem enq_nil : enq prio x [] = [x] := rfl

theorem enq_cons (y : α) : enq prio x (y :: l) = if prio x < prio y then x :: y :: l else y :: enq prio x l := by
  simp [enq]

theorem perm_enq : (enq prio x l).Perm (x :: l) := perm_orderedInsert _ x l

@[simp] theorem mem_enq {y : α} : y ∈ enq prio x l ↔ y = x ∨ y ∈ l := by
  rw [perm_enq.mem_iff, mem_cons]

theorem nodup_enq (h : l.Nodup) (hx : x ∉ l) : (enq prio x l).Nodup := perm_enq.nodup_iff.2 (nodup_cons.2 ⟨hx, h⟩)

/-- Where the newcomer goes. -/
theorem enq_split (prio : α → κ) (x : α) (l : List α) : ∃ A B, l = A ++ B ∧ enq prio x l = A ++ x :: B ∧
    (∀ a ∈ A, prio a ≤ prio x) ∧ ∀ b, B.head? = some b → prio x < prio b := by
  induction l with
  | nil => exact ⟨[], [], rfl, rfl, by simp, by simp⟩
  | cons y l ih =>
    rw [enq_cons]
    by_cases h : prio x < prio y
    · exact ⟨[], y :: l, rfl, by simp [h], by simp, by simpa using h⟩
    · obtain ⟨A, B, rfl, e, hA, hB⟩ := ih
      refine ⟨y :: A, B, rfl, by simp [h, e], fun a ha => ?_, hB⟩
      rcases mem_cons.1 ha with rfl | ha
      · exact not_lt.1 h
      · exact hA a ha

theorem Ordered.split {A B : List α} (h : Ordered prio (A ++ B)) (hB : ∀ b, B.head? = some b → prio x < prio b) :
    ∀ b ∈ B, prio x < prio b := by
  cases B with
  | nil => simp
  | cons b B =>
    intro c hc
    have hb := hB b rfl
    rcases mem_cons.1 hc with rfl | hc
    · exact hb
    · exact hb.trans_le ((pairwise_cons.1 (pairwise_append.1 h).2.1).1 c hc)

theorem enq_append {A : List α} (hA : ∀ a ∈ A, prio a ≤ prio x) : enq prio x (A ++ l) = A ++ enq prio x l := by
  induction A with
  | nil => rfl
  | cons a A ih =>
    rw [cons_append, enq_cons, if_neg (not_lt.2 (hA a mem_cons_self)), ih fun y hy => hA y (mem_cons_of_mem _ hy)]
    rfl

theorem Ordered.enq (h : Ordered prio l) : Ordered prio (enq prio x l) := by
  obtain ⟨A, B, rfl, e, hA, hB⟩ := enq_split prio x l
  obtain ⟨h1, h2, h3⟩ := pairwise_append.1 h
  rw [e]
  refine pairwise_append.2 ⟨h1, pairwise_cons.2 ⟨fun b hb => (h.split hB b hb).le, h2⟩, fun a ha b hb => ?_⟩
  rcases mem_cons.1 hb with rfl | hb
  · exact hA a ha
  · exact h3 a ha b hb

/-- Of an ordered queue, those of one priority stay in order and the newcomer comes last. -/
theorem Ordered.filter_enq (h : Ordered prio l) (k : κ) :
    (StableQueue.enq prio x l).filter (prio · = k) = (l ++ [x]).filter (prio · = k) := by
  obtain ⟨A, B, rfl, e, -, hB⟩ := enq_split prio x l
  have hb := h.split hB
  rw [e]
  by_cases hk : prio x = k
  · have hnone : B.filter (prio · = k) = [] := by
      rw [filter_eq_nil_iff]
      intro b hbB
      simpa [← hk] using (hb b hbB).ne'
    simp [hk, hnone]
  · simp [hk]

theorem Follows.enq (h : Follows prio arr l) : Follows prio (arr ++ [x]) (enq prio x l) :=
  ⟨h.ordered.enq, fun k => by rw [h.ordered.filter_enq, filter_append, filter_append, h.ties]⟩

theorem Follows.nil : Follows prio ([] : List α) [] := ⟨List.Pairwise.nil, fun _ => rfl⟩

theorem Follows.mem (h : Follows prio arr l) {y : α} : y ∈ l ↔ y ∈ arr := by
  have := h.ties (prio y)
  have h1 : y ∈ l.filter (prio · = prio y) ↔ y ∈ l := by simp
  have h2 : y ∈ arr.filter (prio · = prio y) ↔ y ∈ arr := by simp
  rw [← h1, ← h2, this]

theorem Follows.erase [DecidableEq α] (h : Follows prio arr l) (x : α) : Follows prio (arr.erase x) (l.erase x) :=
  ⟨h.ordered.sublist erase_sublist, fun k => by rw [← erase_filter, ← erase_filter, h.ties]⟩

theorem Follows.congr {prio' : α → κ} (h : Follows prio arr l) (hsame : ∀ y ∈ l, prio' y = prio y) :
    Follows prio' arr l := by
  refine ⟨h.ordered.imp_of_mem fun {a b} ha hb hab => by rwa [hsame a ha, hsame b hb], fun k => ?_⟩
  have h1 : l.filter (prio' · = k) = l.filter (prio · = k) := filter_congr fun y hy => by rw [hsame y hy]
  have h2 : arr.filter (prio' · = k) = arr.filter (prio · = k) := filter_congr fun y hy => by rw [hsame y (h.mem.2 hy)]
  rw [h1, h2, h.ties]

/-- The head of the queue came first among those of smallest priority. -/
theorem Follows.head? (h : Follows prio arr l) : l.head? = first prio arr := by
  rw [first, ← List.head?_filter]
  cases l with
  | nil =>
    have : arr = [] := eq_nil_iff_forall_not_mem.2 fun y hy => by simpa using h.mem.2 hy
    simp [this]
  | cons a l =>
    have hmin : ∀ y ∈ arr, prio a ≤ prio y := by
      intro y hy
      rcases mem_cons.1 (h.mem.2 hy) with rfl | hy
      · exact le_rfl
      · exact (pairwise_cons.1 h.ordered).1 y hy
    -- among the arrivals, those of smallest priority are those of the priority of `a`
    have hsame : arr.filter (fun x => arr.all fun y => prio x ≤ prio y) = arr.filter (prio · = prio a) := by
      refine filter_congr fun x hx => ?_
      rw [Bool.eq_iff_iff, all_eq_true, decide_eq_true_iff]
      constructor
      · intro hall
        exact le_antisymm (by simpa using hall a (h.mem.1 mem_cons_self)) (hmin x hx)
      · intro he y hy
        simpa [he] using hmin y hy
    rw [hsame, ← h.ties]
    simp

/-! ## A priority that changes in place -/

/-- With the new priority `k`, every comparison of `x` with another in the queue comes out as before. -/
def KeepsPlace (prio : α → κ) (l : List α) (x : α) (k : κ) : Prop :=
  ∀ y ∈ l, y ≠ x → (prio y < prio x ↔ prio y < k) ∧ (prio x < prio y ↔ k < prio y)

/-- Unless the priority stays what it is, nobody else has the old or the new one. -/
theorem KeepsPlace.alone {k : κ} (hk : KeepsPlace prio l x k) (hne : k ≠ prio x) {y : α} (hy : y ∈ l) (hyx : y ≠ x) :
    prio y ≠ prio x ∧ prio y ≠ k := by
  obtain ⟨h1, h2⟩ := hk y hy hyx
  constructor
  · intro e
    rw [e] at h1 h2
    exact hne (le_antisymm (not_lt.1 fun hlt => (h1.2 hlt).false) (not_lt.1 fun hlt => (h2.2 hlt).false))
  · intro e
    rw [e] at h1 h2
    exact hne (le_antisymm (not_lt.1 fun hlt => (h2.1 hlt).false) (not_lt.1 fun hlt => (h1.1 hlt).false))

section
variable [DecidableEq α] {k : κ}

theorem KeepsPlace.ordered (hk : KeepsPlace prio l x k) (hnd : l.Nodup) (h : Ordered prio l) :
    Ordered (update prio x k) l := by
  refine (hnd.and h).imp_of_mem fun {a b} ha hb hab => ?_
  obtain ⟨hne, hle⟩ := hab
  by_cases hax : a = x
  · subst hax
    rw [update_self, update_of_ne (Ne.symm hne)]
    exact not_lt.1 fun hlt => hle.not_gt ((hk b hb (Ne.symm hne)).1.2 hlt)
  · by_cases hbx : b = x
    · subst hbx
      rw [update_self, update_of_ne hax]
      exact not_lt.1 fun hlt => hle.not_gt ((hk a ha hax).2.2 hlt)
    · rwa [update_of_ne hax, update_of_ne hbx]

theorem Follows.rekey (h : Follows prio arr l) (hnd : l.Nodup) (hk : KeepsPlace prio l x k) :
    Follows (update prio x k) arr l := by
  refine ⟨hk.ordered hnd h.ordered, fun q => ?_⟩
  by_cases hne : k = prio x
  · rw [hne, update_eq_self]; exact h.ties q
  · -- nobody else has the old or the new priority, so it is as if these two were exchanged
    have hswap : ∀ y, y ∈ l ∨ y ∈ arr → update prio x k y = Equiv.swap k (prio x) (prio y) := by
      intro y hy
      by_cases hyx : y = x
      · simp [hyx]
      · obtain ⟨hold, hnew⟩ := hk.alone hne (hy.elim id h.mem.2) hyx
        rw [update_of_ne hyx, Equiv.swap_apply_of_ne_of_ne hnew hold]
    have hfilter : ∀ r : List α, (∀ y ∈ r, y ∈ l ∨ y ∈ arr) →
      r.filter (update prio x k · = q) = r.filter (prio · = Equiv.swap k (prio x) q) := by
      intro r hr
      refine filter_congr fun y hy => ?_
      simp only [hswap y (hr y hy), Equiv.swap_apply_eq_iff]
    rw [hfilter l fun _ => .inl, hfilter arr fun _ => .inr, h.ties]

end

end StableQueue
