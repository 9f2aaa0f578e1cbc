import Mathlib.Data.List.Basic
import Mathlib.Data.List.Nodup
import Mathlib.Logic.Function.Basic
import Zephyr.Lib.Index
/-!
# Circular doubly linked lists over an arbitrary address type

A memory of link cells is a pair of functions; a list with head cell `h` is a ring through `h`.
`Chain m a l b` says that following `next` from `a` visits exactly the cells of `l` and then
reaches `b`, and that `prev` leads back. All facts about a ring are derived from the two local
edits below (`linkBefore`, `unlink`), so a client only has to show that its writes are one of them.
-/
namespace Ring

open Function List

variable {α : Type*}

/-- The `next`/`prev` fields of every cell. -/
structure Links (α : Type*) where
  next : α → α
  prev : α → α

variable {a c n b : α} {l r : List α}

namespace Links

variable [DecidableEq α]

section

variable (m : Links α)

def setNext (a v : α) : Links α := { m with next := update m.next a v }
def setPrev (a v : α) : Links α := { m with prev := update m.prev a v }

@[simp] theorem setNext_prev (a v : α) : (m.setNext a v).prev = m.prev := rfl
@[simp] theorem setPrev_next (a v : α) : (m.setPrev a v).next = m.next := rfl
@[simp] theorem setNext_next_self (a v : α) : (m.setNext a v).next a = v := by simp [setNext]
@[simp] theorem setPrev_prev_self (a v : α) : (m.setPrev a v).prev a = v := by simp [setPrev]

theorem setNext_next_ne (v : α) (h : c ≠ a) : (m.setNext a v).next c = m.next c := by
  simp [setNext, h]

theorem setPrev_prev_ne (v : α) (h : c ≠ a) : (m.setPrev a v).prev c = m.prev c := by
  simp [setPrev, h]

/-- Put `n` between `b`'s predecessor and `b`. -/
def linkBefore (b n : α) : Links α :=
  (((m.setNext n b).setPrev n (m.prev b)).setNext (m.prev b) n).setPrev b n

/-- Take `n` out: its neighbours are joined, its own fields stay as they are. -/
def unlink (n : α) : Links α :=
  (m.setNext (m.prev n) (m.next n)).setPrev (m.next n) (m.prev n)

end

/-- Taking out a node whose neighbours are next to each other changes nothing. -/
theorem unlink_eq_self {m : Links α} (hnext : m.next (m.prev n) = m.next n) (hprev : m.prev (m.next n) = m.prev n) :
    m.unlink n = m := by
  have hset : m.setNext (m.prev n) (m.next n) = m := by rw [setNext, ← hnext, update_eq_self]
  rw [unlink, hset, setPrev, ← hprev, update_eq_self]

end Links

open Links

/-! ## Chains -/

/-- From `a` through the cells of `l` to `b`, linked both ways. -/
def Chain (m : Links α) : α → List α → α → Prop
  | a, [], b => m.next a = b ∧ m.prev b = a
  | a, x :: l, b => (m.next a = x ∧ m.prev x = a) ∧ Chain m x l b

instance decidableChain [DecidableEq α] (m : Links α) : ∀ a l b, Decidable (Chain m a l b)
  | a, [], b => inferInstanceAs (Decidable (m.next a = b ∧ m.prev b = a))
  | a, x :: l, b =>
    have := decidableChain m x l b
    inferInstanceAs (Decidable ((m.next a = x ∧ m.prev x = a) ∧ Chain m x l b))

variable {m m' : Links α}

theorem Chain.append_iff {x : α} : Chain m a (l ++ x :: r) b ↔ Chain m a l x ∧ Chain m x r b := by
  induction l generalizing a with
  | nil => simp [Chain]
  | cons y l ih => simp [Chain, ih, and_assoc]

/-- A chain only reads `next` on its cells but the last, and `prev` on its cells but the first. -/
theorem Chain.frame (h : Chain m a l b) (hn : ∀ c ∈ a :: l, m'.next c = m.next c)
    (hp : ∀ c ∈ b :: l, m'.prev c = m.prev c) : Chain m' a l b := by
  induction l generalizing a with
  | nil => exact ⟨by rw [hn a (by simp)]; exact h.1, by rw [hp b (by simp)]; exact h.2⟩
  | cons x l ih =>
    refine ⟨⟨by rw [hn a (by simp)]; exact h.1.1, by rw [hp x (by simp)]; exact h.1.2⟩, ?_⟩
    refine ih h.2 (fun c hc => hn c (mem_cons_of_mem _ hc)) (fun c hc => hp c ?_)
    rcases mem_cons.1 hc with rfl | hc <;> simp_all

/-- The cell before the end of a chain is its last inner cell, or its start. -/
theorem Chain.prev_mem (h : Chain m a l b) : m.prev b ∈ a :: l := by
  induction l generalizing a with
  | nil => simp [h.2]
  | cons x l ih => exact mem_cons_of_mem _ (ih h.2)

theorem Chain.next_mem (h : Chain m a l b) : m.next a ∈ b :: l := by
  cases l with
  | nil => simp [h.1]
  | cons x l => simp [h.1.1]

section
variable [DecidableEq α]

/-- Linking `n` before the end of a chain lengthens the chain by `n`. -/
theorem Chain.linkBefore (h : Chain m a l b) (hnd : (a :: l).Nodup)
    (hn : n ∉ a :: l) (hnb : n ≠ b) (hbl : b ∉ l) : Chain (m.linkBefore b n) a (l ++ [n]) b := by
  induction l generalizing a with
  | nil =>
    have hna : n ≠ a := by simpa using hn
    simp only [Links.linkBefore, h.2]
    simp [Chain, setNext_next_ne, setPrev_prev_ne, hna, hnb]
  | cons x l ih =>
    obtain ⟨⟨hax, hxa⟩, hch⟩ := h
    have hnd' := nodup_cons.1 hnd
    simp only [mem_cons, not_or] at hn hbl
    have hpm := hch.prev_mem
    have hap : a ≠ m.prev b := fun e => hnd'.1 (e ▸ hpm)
    refine ⟨⟨?_, ?_⟩, ih hch hnd'.2 (by simp [hn.2]) hbl.2⟩
    · simp [Links.linkBefore, setNext_next_ne, hap, Ne.symm hn.1, hax]
    · simp [Links.linkBefore, setPrev_prev_ne, Ne.symm hbl.1, Ne.symm hn.2.1, hxa]

/-- Unlinking an inner cell shortens the chain by it. -/
theorem Chain.unlink (h : Chain m a (l ++ n :: r) b)
    (hnd : (a :: (l ++ n :: r)).Nodup) (hb : b ∉ l ++ n :: r) : Chain (m.unlink n) a (l ++ r) b := by
  obtain ⟨hl, hr⟩ := Chain.append_iff.1 h
  obtain ⟨hal, hnd⟩ := nodup_cons.1 hnd
  obtain ⟨hndl, hndr, hdis⟩ := nodup_append.1 hnd
  obtain ⟨hnr, hndr⟩ := nodup_cons.1 hndr
  have hpm := hl.prev_mem
  have hnm := hr.next_mem
  -- the last cell before `n` and the first one after it are untouched by the other half's write
  induction l generalizing a with
  | nil =>
    have hpa : m.prev n = a := hl.2
    cases r with
    | nil =>
      have hnb : m.next n = b := hr.1
      simp [Chain, Links.unlink, hpa, hnb]
    | cons y r =>
      obtain ⟨⟨hny, _⟩, hyr⟩ := hr
      simp only [nil_append, mem_cons, not_or] at hal hb hnr
      have hyr' := nodup_cons.1 hndr
      refine ⟨⟨by simp [Links.unlink, hpa, hny], by simp [Links.unlink, hpa, hny]⟩, ?_⟩
      refine hyr.frame (fun c hc => ?_) (fun c hc => ?_)
      · have : c ≠ a := by rintro rfl; simp_all
        simp [Links.unlink, hpa, setNext_next_ne, this]
      · have : c ≠ y := by
          rintro rfl
          rcases mem_cons.1 hc with rfl | hc
          · exact hb.2.1 rfl
          · exact hyr'.1 hc
        simp [Links.unlink, hny, setPrev_prev_ne, this]
  | cons x l ih =>
    obtain ⟨⟨hax, hxa⟩, hch⟩ := h
    have hlx := hl.2
    have hndl' := nodup_cons.1 hndl
    have hpx := hlx.prev_mem
    have hap : a ≠ m.prev n := by
      rintro rfl; exact hal (mem_append_left _ hpx)
    have hxn : x ≠ m.next n := by
      intro e
      rcases mem_cons.1 (e ▸ hnm) with h' | h'
      · exact hb (by simp [h'])
      · exact hdis x (by simp) x (by simp [h']) rfl
    refine ⟨⟨by simp [Links.unlink, setNext_next_ne, hap, hax], by simp [Links.unlink, setPrev_prev_ne, hxn, hxa]⟩, ?_⟩
    obtain ⟨hxl, hnd'⟩ := nodup_cons.1 hnd
    exact ih hch hnd (fun h' => hb (mem_cons_of_mem _ h')) hlx hxl hnd' hndl'.2
      (fun c hc d hd => hdis c (mem_cons_of_mem _ hc) d hd) hpx

end

/-! ## Rings -/

/-- The ring with head cell `h` holding the cells `l` in order. -/
structure IsRing (m : Links α) (h : α) (l : List α) : Prop where
  nodup : (h :: l).Nodup
  chain : Chain m h l h

instance [DecidableEq α] (m : Links α) (h : α) (l : List α) : Decidable (IsRing m h l) :=
  decidable_of_iff ((h :: l).Nodup ∧ Chain m h l h) ⟨fun ⟨a, b⟩ => ⟨a, b⟩, fun ⟨a, b⟩ => ⟨a, b⟩⟩

namespace IsRing

variable {h n : α} {l r : List α}

theorem next_of_mem (hr : IsRing m h (l ++ n :: r)) : m.next n = r.headD h := by
  have := (Chain.append_iff.1 hr.chain).2
  cases r with
  | nil => exact this.1
  | cons x r => exact this.1.1

theorem prev_head_nil (hr : IsRing m h []) : m.prev h = h := hr.chain.2

theorem prev_head_concat (hr : IsRing m h (l ++ [n])) : m.prev h = n :=
  (Chain.append_iff.1 hr.chain).2.2

section

variable (hr : IsRing m h l)

include hr

theorem head_not_mem : h ∉ l := (nodup_cons.1 hr.nodup).1

theorem nodup_tail : l.Nodup := (nodup_cons.1 hr.nodup).2

/-- Rings read only their own cells. -/
theorem frame (hc : ∀ c ∈ h :: l, m'.next c = m.next c ∧ m'.prev c = m.prev c) :
    IsRing m' h l :=
  ⟨hr.nodup, hr.chain.frame (fun c hm => (hc c hm).1) (fun c hm => (hc c hm).2)⟩

theorem next_head : m.next h = l.headD h := by
  cases l with
  | nil => exact hr.chain.1
  | cons x l => exact hr.chain.1.1

theorem eq_nil_iff : m.next h = h ↔ l = [] := by
  rw [hr.next_head]
  cases l with
  | nil => simp
  | cons x l =>
    have := hr.head_not_mem
    simp only [headD_cons, reduceCtorEq, iff_false]
    rintro rfl; simp at this

/-- The tail cell of a ring is the last of its cells. -/
theorem prev_head : m.prev h = l.getLast?.getD h := by
  rcases eq_nil_or_concat l with rfl | ⟨l', x, rfl⟩
  · exact hr.prev_head_nil
  · rw [concat_eq_append] at hr ⊢; simpa using hr.prev_head_concat

theorem prev_head_mem : m.prev h ∈ h :: l := hr.chain.prev_mem

end

variable [DecidableEq α]

/-- Linking before the head appends. -/
theorem linkBefore_head (hr : IsRing m h l) (hn : n ∉ h :: l) : IsRing (m.linkBefore h n) h (l ++ [n]) := by
  have hh := hr.head_not_mem
  have hnh : n ≠ h := fun e => hn (by simp [e])
  refine ⟨?_, hr.chain.linkBefore hr.nodup hn hnh hh⟩
  have : n ∉ l := fun h' => hn (mem_cons_of_mem _ h')
  simp [nodup_append, hr.nodup_tail, hh, Ne.symm hnh]
  exact fun a ha e => this (e ▸ ha)

/-- Linking before a member puts the new cell right in front of it. -/
theorem linkBefore_mem (hr : IsRing m h (l ++ b :: r)) (hn : n ∉ h :: (l ++ b :: r)) :
    IsRing (m.linkBefore b n) h (l ++ n :: b :: r) := by
  obtain ⟨hl, hbr⟩ := Chain.append_iff.1 hr.chain
  have hnd := hr.nodup
  simp only [nodup_cons, mem_append, mem_cons, nodup_append, not_or] at hnd hn
  obtain ⟨⟨hhl, hhb, hhr⟩, hlnd, ⟨hbr', hrnd⟩, hdis⟩ := hnd
  obtain ⟨hnh, hnl, hnb, hnr⟩ := hn
  have hbl : b ∉ l := fun h' => hdis b h' b (.inl rfl) rfl
  have hpm := hl.prev_mem
  have hnew := hl.linkBefore (n := n) (by simp [hhl, hlnd]) (by simp [hnh, hnl]) hnb hbl
  have hrest : Chain (m.linkBefore b n) b r h := by
    refine hbr.frame (fun c hc => ?_) (fun c hc => ?_)
    · have h1 : c ≠ m.prev b := by
        rintro rfl
        rcases mem_cons.1 hc with hc | hc <;> rcases mem_cons.1 hpm with hp | hp
        · exact hhb (hp.symm.trans hc)
        · exact hdis _ hp _ (.inl rfl) hc
        · exact hhr (hp ▸ hc)
        · exact hdis _ hp _ (.inr hc) rfl
      have h2 : c ≠ n := by rintro rfl; rcases mem_cons.1 hc with rfl | hc <;> simp_all
      simp [Links.linkBefore, setNext_next_ne, h1, h2]
    · have h1 : c ≠ b := by rintro rfl; rcases mem_cons.1 hc with rfl | hc <;> simp_all
      have h2 : c ≠ n := by rintro rfl; rcases mem_cons.1 hc with rfl | hc <;> simp_all
      simp [Links.linkBefore, setPrev_prev_ne, h1, h2]
  refine ⟨?_, ?_⟩
  · simp only [nodup_cons, mem_append, mem_cons, nodup_append, not_or]
    refine ⟨⟨hhl, Ne.symm hnh, hhb, hhr⟩, hlnd, ⟨⟨hnb, hnr⟩, hbr', hrnd⟩, ?_⟩
    rintro x hx y (rfl | hy)
    · rintro rfl; exact hnl hx
    · exact hdis x hx y hy
  · have := Chain.append_iff.2 ⟨hnew, hrest⟩
    simpa using this

/-- Unlinking a member removes exactly it. -/
theorem unlink (hr : IsRing m h (l ++ n :: r)) : IsRing (m.unlink n) h (l ++ r) := by
  refine ⟨?_, hr.chain.unlink hr.nodup hr.head_not_mem⟩
  exact hr.nodup.sublist (cons_sublist_cons.2 ((sublist_cons_self _ _).append_left _))

/-- The cells a link before `b` may write are `n`, `b` and `b`'s predecessor. -/
theorem linkBefore_of_ne (hcn : c ≠ n) (hcb : c ≠ b) (hcp : c ≠ m.prev b) :
    (m.linkBefore b n).next c = m.next c ∧ (m.linkBefore b n).prev c = m.prev c := by
  simp [Links.linkBefore, setNext_next_ne, setPrev_prev_ne, hcn, hcb, hcp]

/-- The cells an unlink of `n` may write are `n`'s two neighbours. -/
theorem unlink_of_ne (hcp : c ≠ m.prev n) (hcn : c ≠ m.next n) :
    (m.unlink n).next c = m.next c ∧ (m.unlink n).prev c = m.prev c := by
  simp [Links.unlink, setNext_next_ne, setPrev_prev_ne, hcp, hcn]

omit [DecidableEq α] in
/-- Both neighbours of a member lie on its ring. -/
theorem neighbours_mem (hr : IsRing m h (l ++ n :: r)) : m.prev n ∈ h :: l ∧ m.next n ∈ h :: r := by
  obtain ⟨h1, h2⟩ := Chain.append_iff.1 hr.chain
  exact ⟨h1.prev_mem, h2.next_mem⟩

end IsRing

/-! ## Families of rings in one memory -/

/-- Rings `hd i` with cells `L i`, no two of which share a cell. -/
structure IsRings {ι : Type*} (m : Links α) (hd : ι → α) (L : ι → List α) : Prop where
  ring : ∀ i, IsRing m (hd i) (L i)
  disj : ∀ i j, i ≠ j → ∀ c ∈ hd i :: L i, c ∉ hd j :: L j

namespace IsRings

variable {ι : Type*} [DecidableEq ι] [DecidableEq α] {hd : ι → α} {L : ι → List α} {n : α} {i : ι}

omit [DecidableEq α] in
/-- An edit of ring `i` that keeps its cells on the ring or adds fresh ones, and writes no cell of
another ring, is an edit of the family. -/
theorem edit (hr : IsRings m hd L) {l' : List α} (hi : IsRing m' (hd i) l')
    (hsub : ∀ c ∈ l', c ∈ L i ∨ ∀ j, c ∉ hd j :: L j)
    (hw : ∀ j, j ≠ i → ∀ c ∈ hd j :: L j, m'.next c = m.next c ∧ m'.prev c = m.prev c) :
    IsRings m' hd (update L i l') := by
  have hother : ∀ j, j ≠ i → ∀ c ∈ hd j :: L j, c ∉ hd i :: l' := by
    intro j hj c hc hci
    rcases mem_cons.1 hci with rfl | hci
    · exact hr.disj j i hj _ hc mem_cons_self
    · exact (hsub c hci).elim (fun h => hr.disj j i hj c hc (mem_cons_of_mem _ h)) fun h => h j hc
  refine ⟨fun j => ?_, fun j k hjk c hj hk => ?_⟩
  · by_cases hj : j = i
    · subst hj; simpa using hi
    · simp only [update_of_ne hj]
      exact (hr.ring j).frame (hw j hj)
  · by_cases hji : j = i
    · subst hji
      simp only [update_self, update_of_ne (Ne.symm hjk)] at hj hk
      exact hother k (Ne.symm hjk) c hk hj
    · by_cases hki : k = i
      · subst hki
        simp only [update_self, update_of_ne hji] at hj hk
        exact hother j hji c hj hk
      · simp only [update_of_ne hji, update_of_ne hki] at hj hk
        exact hr.disj j k hjk c hj hk

theorem linkBefore_head (hr : IsRings m hd L) (hn : ∀ j, n ∉ hd j :: L j) :
    IsRings (m.linkBefore (hd i) n) hd (update L i (L i ++ [n])) := by
  refine hr.edit ((hr.ring i).linkBefore_head (hn i)) (fun c hc => ?_) (fun j hj c hc => ?_)
  · rcases mem_append.1 hc with hc | hc
    · exact .inl hc
    · exact .inr (by simpa [mem_singleton.1 hc] using hn)
  · refine IsRing.linkBefore_of_ne ?_ ?_ ?_
    · rintro rfl; exact hn j hc
    · rintro rfl; exact hr.disj j i hj _ hc (by simp)
    · rintro rfl; exact hr.disj j i hj _ hc (hr.ring i).prev_head_mem

theorem linkBefore_mem (hr : IsRings m hd L) (hL : L i = l ++ b :: r) (hn : ∀ j, n ∉ hd j :: L j) :
    IsRings (m.linkBefore b n) hd (update L i (l ++ n :: b :: r)) := by
  have hring := hr.ring i
  have hni := hn i
  rw [hL] at hring hni
  have hb : b ∈ hd i :: L i := by simp [hL]
  have hp : m.prev b ∈ hd i :: L i := by
    have := hring.neighbours_mem.1
    rw [hL]; simp only [mem_cons, mem_append] at this ⊢; tauto
  refine hr.edit (hring.linkBefore_mem hni) (fun c hc => ?_) (fun j hj c hc => ?_)
  · simp only [mem_append, mem_cons] at hc
    by_cases hcn : c = n
    · exact .inr (by simpa [hcn] using hn)
    · exact .inl (by rw [hL]; simp only [mem_append, mem_cons]; tauto)
  · refine IsRing.linkBefore_of_ne ?_ ?_ ?_
    · rintro rfl; exact hn j hc
    · rintro rfl; exact hr.disj j i hj _ hc hb
    · rintro rfl; exact hr.disj j i hj _ hc hp

theorem unlink (hr : IsRings m hd L) (hL : L i = l ++ n :: r) : IsRings (m.unlink n) hd (update L i (l ++ r)) := by
  have hring := hr.ring i
  rw [hL] at hring
  obtain ⟨hp, hx⟩ := hring.neighbours_mem
  refine hr.edit hring.unlink (fun c hc => ?_) (fun j hj c hc => ?_)
  · refine .inl ?_
    rw [hL]; simp only [mem_append, mem_cons] at hc ⊢; tauto
  · have hne := hr.disj j i hj c hc
    rw [hL] at hne
    refine IsRing.unlink_of_ne ?_ ?_
    · rintro rfl; exact hne (by simp only [mem_cons, mem_append] at hp ⊢; tauto)
    · rintro rfl; exact hne (by simp only [mem_cons, mem_append] at hx ⊢; tauto)

end IsRings

end Ring
