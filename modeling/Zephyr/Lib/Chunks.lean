import Mathlib.Algebra.Ring.Nat
import Mathlib.Data.List.Basic
/-!
# Positions in a list of chunks

Data that is cut into chunks is read and edited by a walk that drops whole chunks from the front until the offset
falls into one. The content of the chunks is one list, and a pair of a rest of the chunks and an offset into it is
a position in that list.
-/
namespace Chunks

open List

variable {α β : Type*} {f : β → List α} {stop : Nat → Nat → Bool} {c passed rest : List β} {o p : Nat}

/-- What the chunks hold. -/
def content (f : β → List α) (c : List β) : List α := c.flatMap f

@[simp] theorem content_nil : content f [] = [] := rfl

@[simp] theorem content_cons (b : β) : content f (b :: c) = f b ++ content f c := rfl

@[simp] theorem content_append (c d : List β) : content f (c ++ d) = content f c ++ content f d := flatMap_append

/-- The chunks passed, those left, and the offset into these, when the offset and the length of a chunk tell to
`stop`. -/
def walk (f : β → List α) (stop : Nat → Nat → Bool) : List β → Nat → List β × List β × Nat
  | [], o => ([], [], o)
  | b :: c, o =>
    if stop o (f b).length then ([], b :: c, o)
    else
      let (passed, rest, o) := walk f stop c (o - (f b).length)
      (b :: passed, rest, o)

/-- **Where a walk ends** that stops, at the latest, in the chunk that the offset falls into. -/
theorem walk_spec (hstop : ∀ o l, stop o l = false → l ≤ o) (hwalk : walk f stop c o = (passed, rest, p)) :
    c = passed ++ rest ∧ (content f passed).length + p = o ∧ ∀ b ∈ rest.head?, stop p (f b).length = true := by
  induction c generalizing o passed with
  | nil =>
    simp only [walk, Prod.mk.injEq] at hwalk
    obtain ⟨rfl, rfl, rfl⟩ := hwalk
    simp
  | cons b c ih =>
    unfold walk at hwalk
    split at hwalk
    · next hs =>
      simp only [Prod.mk.injEq] at hwalk
      obtain ⟨rfl, rfl, rfl⟩ := hwalk
      simpa using hs
    · next hs =>
      have hle := hstop o _ (by simpa using hs)
      generalize hrec : walk f stop c (o - (f b).length) = r at hwalk
      obtain ⟨passed', rest', p'⟩ := r
      simp only [Prod.mk.injEq] at hwalk
      obtain ⟨rfl, rfl, rfl⟩ := hwalk
      obtain ⟨hc, hlen, hhead⟩ := ih hrec
      refine ⟨by rw [hc, cons_append], ?_, hhead⟩
      rw [content_cons, length_append]
      omega

/-- It goes on past the chunks that the offset is not in. -/
theorem walk_append (hpass : ∀ o l, l ≤ o → stop o l = false) (passed rest : List β) (p : Nat) :
    (walk f stop (passed ++ rest) ((content f passed).length + p)).2 = (walk f stop rest p).2 := by
  induction passed with
  | nil => simp
  | cons b passed ih =>
    have hle : (f b).length ≤ (content f (b :: passed)).length + p := by simp [Nat.add_assoc]
    rw [cons_append, walk, if_neg (Bool.eq_false_iff.1 (hpass _ _ hle))]
    have hsub : (content f (b :: passed)).length + p - (f b).length = (content f passed).length + p := by
      rw [content_cons, length_append]
      omega
    rw [hsub]
    exact ih

/-- The pair of a rest of the chunks and an offset into it stands for the position `k` in the content of all. -/
def Denotes (f : β → List α) (c rest : List β) (p k : Nat) : Prop :=
  ∃ passed, c = passed ++ rest ∧ (content f passed).length + p = k

theorem Denotes.start (c : List β) (p : Nat) : Denotes f c c p p := ⟨[], rfl, Nat.zero_add p⟩

variable {k : Nat}

/-- A way from a position of the rest is one in the whole. -/
theorem Denotes.trans {rest' : List β} {n q : Nat} (h : Denotes f c rest p k) (h' : Denotes f rest rest' q (p + n)) :
    Denotes f c rest' q (k + n) := by
  obtain ⟨passed, rfl, rfl⟩ := h
  obtain ⟨passed', rfl, hq⟩ := h'
  refine ⟨passed ++ passed', by rw [append_assoc], ?_⟩
  rw [content_append, length_append]
  omega

theorem Denotes.length (h : Denotes f c rest p k) : (content f rest).length + k = (content f c).length + p := by
  obtain ⟨passed, rfl, rfl⟩ := h
  rw [content_append, length_append]
  omega

theorem Denotes.drop (h : Denotes f c rest p k) : (content f rest).drop p = (content f c).drop k := by
  obtain ⟨passed, rfl, rfl⟩ := h
  have hlen : (content f passed).length ≤ (content f passed).length + p := Nat.le_add_right _ _
  rw [content_append, drop_append, drop_eq_nil_of_le hlen, nil_append, Nat.add_sub_cancel_left]

/-- One chunk further on. -/
theorem Denotes.next {b : β} (h : Denotes f c (b :: rest) (f b).length k) : Denotes f c rest 0 k := by
  obtain ⟨passed, rfl, hk⟩ := h
  refine ⟨passed ++ [b], by simp, ?_⟩
  simpa [Nat.add_comm, Nat.add_assoc] using hk

end Chunks
