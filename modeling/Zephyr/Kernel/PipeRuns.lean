import Zephyr.Kernel.PipeXfer
/-!
# Pipes keep every byte

Writers wait only while the ring buffer is full and readers only while it is empty (`PipeInv`), so that the bytes
a call reads and the room it makes add up to what its working set asks for: `pipe_xfer_prepare` can tell from
the sizes alone who will be served. The invariant holds in every run of calls and time-outs, also of
the waiter that a call is copying for.
-/
namespace Zephyr

open StableQueue Function List Option PipeState

variable {β : Type} {s s' : PipeState β} {c t n : Nat} {x : InXfer}

/-! ## The invariant -/

namespace PipeState

/-- The call that has the scheduler locked. -/
def caller (s : PipeState β) : List Nat := (s.busy.map InXfer.call).toList

/-- The calls that it has taken off a wait queue. -/
def held (s : PipeState β) : List Nat := (s.busy.map InXfer.xferList).getD []

/-- The calls whose descriptor is in use. -/
def active (s : PipeState β) : List Nat := s.writers ++ s.readers ++ s.woken ++ s.held

end PipeState

/-- The working set of a call for `m` bytes that took it off the wait queue `q`; its members read if `kind` is true. -/
structure Xfer (s : PipeState β) (x : InXfer) (q : List Nat) (m : Nat) (kind : Bool) : Prop where
  kind : ∀ t, t ∈ x.xferList ∨ x.waiter = some t → isGet s t = kind
  sum : demand s x.xferList ≤ m
  all : x.waiter = none → q = []
  part : ∀ t ∈ x.waiter, m < demand s x.xferList + (s.desc t).bytesToXfer ∧ t ∈ s.active ∧ t ∉ x.xferList

structure PipeInv (s : PipeState β) : Prop where
  good : Good s s.active
  served : Served s
  nodup : (s.caller ++ s.active).Nodup
  known : ∀ c ∈ s.caller ++ s.active, (s.calls c).isSome ∧ s.returned c = none
  unborn : ∀ c, s.calls c = none → s.takenFrom c = [] ∧ s.dest c = [] ∧ s.returned c = none
  result : ∀ c code n, s.returned c = some (code, n) → n = if isGet s c then
    (s.dest c).length else (s.takenFrom c).length
  fits : ∀ c, isGet s c = true → (s.dest c).length ≤ s.bytesAsked c
  writers : ∀ w ∈ s.writers, isGet s w = false
  readers : ∀ r ∈ s.readers, isGet s r = true
  full : s.writers ≠ [] → s.pipe.bytesUsed = s.pipe.size
  empty : s.readers ≠ [] → s.pipe.bytesUsed = 0
  apart : s.writers = [] ∨ s.readers = []
  putXfer : ∀ x ∈ s.busy, isGet s x.call = false → s.takenFrom x.call = [] ∧
    Xfer s x s.readers (s.data x.call).length true ∧
    (x.xferList ≠ [] ∨ x.waiter ≠ none → s.pipe.bytesUsed = 0 ∧ s.writers = [])
  getXfer : ∀ x ∈ s.busy, isGet s x.call = true → s.dest x.call = [] ∧ Xfer s x s.writers (s.bytesAsked x.call) false ∧
    (x.xferList ≠ [] ∨ x.waiter ≠ none → s.pipe.bytesUsed = s.pipe.size ∧ s.readers = [])

theorem PipeInv.not_busy (h : s.busy = none) : s.caller = [] ∧ s.held = [] := by simp [caller, held, h]

/-! ## A call is made -/

section born

variable {k : PipeCall β} (hc : s.calls c = none)

/-- The call `c` with its arguments. -/
def withCall (s : PipeState β) (c : Nat) (k : PipeCall β) : PipeState β := { s with calls := update s.calls c (some k) }

theorem withCall_calls_ne (ht : t ≠ c) : (withCall s c k).calls t = s.calls t := update_of_ne ht _ _

theorem withCall_data (ht : t ≠ c) : (withCall s c k).data t = s.data t := by
  rw [data, data, withCall_calls_ne ht]

theorem withCall_bytesAsked (ht : t ≠ c) : (withCall s c k).bytesAsked t = s.bytesAsked t := by
  rw [bytesAsked, bytesAsked, withCall_calls_ne ht, withCall_data ht]

theorem withCall_isGet (ht : t ≠ c) : isGet (withCall s c k) t = isGet s t := by rw [isGet, isGet, withCall_calls_ne ht]

include hc

theorem PipeInv.withCall (h : PipeInv s) (hb : s.busy = none) : PipeInv (withCall s c k) := by
  obtain ⟨htaken, hdest, hret⟩ := h.unborn c hc
  have hne : ∀ t ∈ s.caller ++ s.active, t ≠ c := by
    rintro t ht rfl
    have := (h.known t ht).1
    simp [hc] at this
  have hact : ∀ t ∈ s.active, t ≠ c := fun t ht => hne t (mem_append_right _ ht)
  have hw : ∀ t ∈ s.writers, t ≠ c := fun t ht => hact t (by simp [active, ht])
  have hr : ∀ t ∈ s.readers, t ≠ c := fun t ht => hact t (by simp [active, ht])
  refine ⟨⟨⟨h.good.books.ring, h.good.books.whole, h.good.books.order, fun t => ?_, h.good.books.dest⟩,
    fun t ht hg => ?_, fun t ht hg => ?_⟩,
    h.served, h.nodup, fun t ht => ?_, fun t ht => ?_, fun t code n hn => ?_, fun t hg => ?_, fun t ht => ?_,
    fun t ht => ?_, h.full, h.empty, h.apart, fun x hx => ?_, fun x hx => ?_⟩
  · by_cases htc : t = c
    · subst htc
      show s.takenFrom t <+: _
      rw [htaken]
      exact nil_prefix
    · rw [withCall_data htc]
      exact h.good.books.source t
  · rw [withCall_isGet (hact t ht)] at hg
    have hok := h.good.reader t ht hg
    exact ⟨hok.pos, by rw [withCall_bytesAsked (hact t ht)]; exact hok.left⟩
  · rw [withCall_isGet (hact t ht)] at hg
    have hok := h.good.writer t ht hg
    exact ⟨by rw [withCall_data (hact t ht)]; exact hok.pos, by rw [withCall_data (hact t ht)]; exact hok.left⟩
  · rw [withCall_calls_ne (hne t ht)]
    exact h.known t ht
  · have htc : t ≠ c := by
      rintro rfl
      simp [Zephyr.withCall] at ht
    rw [withCall_calls_ne htc] at ht
    exact h.unborn t ht
  · have htc : t ≠ c := by
      rintro rfl
      have : s.returned t = some (code, n) := hn
      simp [hret] at this
    rw [withCall_isGet htc]
    exact h.result t code n hn
  · by_cases htc : t = c
    · subst htc
      show (s.dest t).length ≤ _
      simp [hdest]
    · rw [withCall_isGet htc] at hg
      rw [withCall_bytesAsked htc]
      exact h.fits t hg
  · rw [withCall_isGet (hw t ht)]
    exact h.writers t ht
  · rw [withCall_isGet (hr t ht)]
    exact h.readers t ht
  · have : s.busy = some x := hx
    simp [hb] at this
  · have : s.busy = some x := hx
    simp [hb] at this

end born

theorem caller_append_active (hb : s.busy = none) : s.caller ++ s.active = s.active := by
  rw [(PipeInv.not_busy hb).1, nil_append]

/-- A call returns. -/
theorem PipeInv.ret (h : PipeInv s) (hb : s.busy = none) (hc : c ∉ s.active) (hk : (s.calls c).isSome) (code : ℤ)
    (hn : n = if isGet s c then (s.dest c).length else (s.takenFrom c).length) : PipeInv (s.ret c code n) := by
  have hret : ∀ t, t ≠ c → (s.ret c code n).returned t = s.returned t := fun t ht => update_of_ne ht _ _
  have hidle : ∀ x, x ∉ (s.ret c code n).busy := by
    intro x hx
    have : s.busy = some x := hx
    simp [hb] at this
  refine ⟨h.good.congr rfl rfl rfl rfl rfl, h.served, h.nodup, fun t ht => ?_, fun t ht => ?_,
    fun t code' n' hn' => ?_, h.fits, h.writers,
    h.readers, h.full, h.empty, h.apart, fun x hx => absurd hx (hidle x), fun x hx => absurd hx (hidle x)⟩
  · have htc : t ≠ c := fun e => hc (by rw [← caller_append_active hb]; exact e ▸ ht)
    rw [hret t htc]
    exact h.known t ht
  · have htc : t ≠ c := by
      rintro rfl
      have : s.calls t = none := ht
      simp [this] at hk
    rw [hret t htc]
    exact h.unborn t ht
  · by_cases htc : t = c
    · subst htc
      have hself : (s.ret t code n).returned t = some (code, n) := update_self ..
      rw [hself] at hn'
      cases hn'
      exact hn
    · rw [hret t htc] at hn'
      exact h.result t code' n' hn'

/-! ## Calls change their places -/

/-- Nothing but the lists of calls differs. -/
structure SameBooks (s s' : PipeState β) : Prop where
  pipe : s'.pipe = s.pipe
  calls : s'.calls = s.calls
  desc : s'.desc = s.desc
  dest : s'.dest = s.dest
  copies : s'.copies = s.copies
  returned : s'.returned = s.returned
  readied : s'.readied = s.readied

theorem PipeInv.regroup (h : PipeInv s) (hs : SameBooks s s') (hw : ∀ w ∈ s'.writers, w ∈ s.writers)
    (hr : ∀ r ∈ s'.readers, r ∈ s.readers)
    (hact : ∀ t ∈ s'.active, t ∈ s.active) (hnd : (s'.caller ++ s'.active).Nodup)
    (hcall : ∀ c ∈ s'.caller, (s.calls c).isSome ∧ s.returned c = none)
    (hput : ∀ x ∈ s'.busy, isGet s x.call = false → s.takenFrom x.call = [] ∧
      Xfer s' x s'.readers (s.data x.call).length true ∧
      (x.xferList ≠ [] ∨ x.waiter ≠ none → s.pipe.bytesUsed = 0 ∧ s'.writers = []))
    (hget : ∀ x ∈ s'.busy, isGet s x.call = true → s.dest x.call = [] ∧
      Xfer s' x s'.writers (s.bytesAsked x.call) false ∧
      (x.xferList ≠ [] ∨ x.waiter ≠ none → s.pipe.bytesUsed = s.pipe.size ∧ s'.readers = [])) : PipeInv s' := by
  have hnil : ∀ {l l' : List Nat}, (∀ t ∈ l', t ∈ l) → l = [] → l' = [] := by
    rintro l l' hsub rfl
    exact eq_nil_iff_forall_not_mem.2 fun t ht => not_mem_nil (hsub t ht)
  have hapart : s'.writers = [] ∨ s'.readers = [] := h.apart.imp (hnil hw) (hnil hr)
  have hgood := (h.good.mono hact).congr hs.pipe hs.calls hs.desc hs.dest hs.copies
  obtain ⟨hpipe, hcalls, hdesc, hdest, hcopies, hret, hready⟩ := hs
  cases s
  cases s'
  simp only at hpipe hcalls hdesc hdest hcopies hret hready
  subst hpipe hcalls hdesc hdest hcopies hret hready
  refine ⟨hgood, h.served, hnd, fun t ht => ?_, h.unborn, h.result, h.fits, fun w hm => h.writers w (hw w hm),
    fun r hm => h.readers r (hr r hm),
    fun hl => h.full fun e => hl (hnil hw e), fun hl => h.empty fun e => hl (hnil hr e), hapart, hput, hget⟩
  rcases mem_append.1 ht with ht | ht
  · exact hcall t ht
  · exact h.known t (mem_append_right _ (hact t ht))

/-- The waiters `T` of the queue `T ++ rest` go to the working set. -/
theorem xfer_of_workingSet {m : Nat} {T rest : List Nat} {wt : Option Nat} {kind : Bool} (hsame : SameBooks s s')
    (hnd : (T ++ rest).Nodup) (hkind : ∀ t ∈ T ++ rest, isGet s t = kind) (hsum : demand s T ≤ m)
    (hnone : wt = none → rest = [])
    (hsome : ∀ t ∈ wt, t ∈ rest ∧ m < demand s T + (s.desc t).bytesToXfer) (hrest : ∀ t ∈ rest, t ∈ s'.active) :
    Xfer s' ⟨c, T, wt⟩ rest m kind ∧ (T ≠ [] ∨ wt ≠ none → T ++ rest ≠ []) := by
  have hdem : demand s' T = demand s T := by unfold demand; rw [hsame.desc]
  refine ⟨⟨fun t ht => ?_, by rw [hdem]; exact hsum, hnone, fun t ht => ?_⟩, ?_⟩
  · rw [isGet, hsame.calls]
    refine hkind t (mem_append.2 (ht.imp_right fun e => (hsome t e).1))
  · obtain ⟨hm, hlt⟩ := hsome t ht
    rw [hdem, hsame.desc]
    exact ⟨hlt, hrest t hm, fun hT => disjoint_of_nodup_append hnd hT hm⟩
  · rintro (hne | hne) e
    · exact hne (append_eq_nil_iff.1 e).1
    · obtain ⟨t, ht⟩ := ne_none_iff_exists'.1 hne
      have := (hsome t ht).1
      simp [(append_eq_nil_iff.1 e).2] at this

section begin

variable (h : PipeInv s) (hb : s.busy = none) (hc : c ∉ s.active) (hk : (s.calls c).isSome) (hr : s.returned c = none)

include h hb hc hk hr

theorem PipeInv.putBegin (hget : isGet s c = false) (htaken : s.takenFrom c = []) : PipeInv (putBegin s c) := by
  unfold Zephyr.putBegin pipeXferPrepare
  obtain ⟨T, wt, rest, hset, hq, hsum, hnone, hsome⟩ :=
    workingSet_spec (s := s) (s.data c).length s.readers 0 (by omega)
  rw [hset]
  split
  · exact h.ret hb hc hk eio (by simp [hget, htaken])
  rename_i heq
  split at heq
  · cases heq
  cases heq
  simp only [Nat.zero_add] at hsum hsome
  have hnd := h.nodup
  rw [caller_append_active hb] at hnd
  have hactive : (s.writers ++ rest ++ s.woken ++ T).Perm s.active := by
    rw [active, (PipeInv.not_busy hb).2, hq, append_nil, append_assoc s.writers, append_assoc s.writers,
      append_assoc s.writers]
    refine List.Perm.append_left _ ?_
    rw [append_assoc T]
    exact perm_append_comm
  have hndr : (T ++ rest).Nodup := by
    rw [← hq]
    rw [active, append_assoc, append_assoc] at hnd
    exact (nodup_append.1 (nodup_append.1 hnd).2.1).1
  refine h.regroup ⟨rfl, rfl, rfl, rfl, rfl, rfl, rfl⟩ (fun w hw => hw)
    (fun r hm => by rw [hq]; exact mem_append_right _ hm)
    (fun t ht => hactive.subset ht) ?_ ?_ ?_ ?_
  · exact nodup_cons.2 ⟨fun hm => hc (hactive.subset hm), hactive.nodup_iff.2 hnd⟩
  · rintro t ht
    obtain rfl : t = c := by simpa [caller] using ht
    exact ⟨hk, hr⟩
  · rintro x ⟨⟩ _
    obtain ⟨hx, hne⟩ := xfer_of_workingSet (c := c)
      (show SameBooks s { s with readers := rest, busy := some ⟨c, T, wt⟩ } from ⟨rfl, rfl, rfl, rfl, rfl, rfl, rfl⟩)
      hndr (fun t ht => h.readers t (by rw [hq]; exact ht)) hsum hnone hsome (fun t ht => by simp [active, ht])
    refine ⟨htaken, hx, fun hor => ?_⟩
    have hreaders : s.readers ≠ [] := hq ▸ hne hor
    exact ⟨h.empty hreaders, h.apart.resolve_right hreaders⟩
  · rintro x ⟨⟩ hg
    rw [hget] at hg
    cases hg

theorem PipeInv.getBegin (hget : isGet s c = true) (hdest : s.dest c = []) : PipeInv (getBegin s c) := by
  unfold Zephyr.getBegin pipeXferPrepare
  obtain ⟨T, wt, rest, hset, hq, hsum, hnone, hsome⟩ := workingSet_spec (s := s) (s.bytesAsked c) s.writers 0 (by omega)
  rw [hset]
  split
  · exact h.ret hb hc hk eio (by simp [hget, hdest])
  rename_i heq
  split at heq
  · cases heq
  cases heq
  simp only [Nat.zero_add] at hsum hsome
  have hnd := h.nodup
  rw [caller_append_active hb] at hnd
  have hactive : (rest ++ s.readers ++ s.woken ++ T).Perm s.active := by
    rw [active, (PipeInv.not_busy hb).2, hq, append_nil, append_assoc T, append_assoc T]
    exact perm_append_comm
  have hndw : (T ++ rest).Nodup := by
    rw [← hq]
    rw [active, append_assoc, append_assoc] at hnd
    exact (nodup_append.1 hnd).1
  refine h.regroup ⟨rfl, rfl, rfl, rfl, rfl, rfl, rfl⟩ (fun w hm => by rw [hq]; exact mem_append_right _ hm)
    (fun r hr => hr)
    (fun t ht => hactive.subset ht) ?_ ?_ ?_ ?_
  · exact nodup_cons.2 ⟨fun hm => hc (hactive.subset hm), hactive.nodup_iff.2 hnd⟩
  · rintro t ht
    obtain rfl : t = c := by simpa [caller] using ht
    exact ⟨hk, hr⟩
  · rintro x ⟨⟩ hg
    rw [hget] at hg
    cases hg
  · rintro x ⟨⟩ _
    obtain ⟨hx, hne⟩ := xfer_of_workingSet (c := c)
      (show SameBooks s { s with writers := rest, busy := some ⟨c, T, wt⟩ } from ⟨rfl, rfl, rfl, rfl, rfl, rfl, rfl⟩)
      hndw (fun t ht => h.writers t (by rw [hq]; exact ht)) hsum hnone hsome (fun t ht => by simp [active, ht])
    refine ⟨hdest, hx, fun hor => ?_⟩
    have hwriters : s.writers ≠ [] := hq ▸ hne hor
    exact ⟨h.full hwriters, h.apart.resolve_left hwriters⟩

end begin

/-! ## Time-outs and returns -/

theorem PipeInv.expire (h : PipeInv s) (hc : c ∈ s.writers ∨ c ∈ s.readers) :
    PipeInv { s with writers := s.writers.erase c, readers := s.readers.erase c, woken := s.woken ++ [c] } := by
  have hnd := (nodup_append.1 h.nodup).2.1
  have hqueues : (s.writers ++ s.readers).Nodup := by
    rw [active, append_assoc] at hnd
    exact (nodup_append.1 hnd).1
  -- only one of the queues has the call
  have herase : s.writers.erase c ++ s.readers.erase c = (s.writers ++ s.readers).erase c := by
    rcases hc with hw | hr
    · rw [erase_append_left _ hw, erase_of_not_mem (disjoint_of_nodup_append hqueues hw)]
    · have hw : c ∉ s.writers := fun hw => disjoint_of_nodup_append hqueues hw hr
      rw [erase_append_right _ hw, erase_of_not_mem hw]
  have hperm : (s.writers.erase c ++ s.readers.erase c ++ (s.woken ++ [c]) ++ s.held).Perm s.active := by
    rw [herase, active]
    refine List.Perm.append_right _ ?_
    have hmem : c ∈ s.writers ++ s.readers := mem_append.2 hc
    have hcons := perm_cons_erase hmem
    refine List.Perm.trans ?_ (hcons.append_right s.woken).symm
    rw [← append_assoc]
    exact perm_append_comm.trans (List.Perm.refl _)
  have hxfer : ∀ {x : InXfer} {q q' : List Nat} {m : Nat} {kind : Bool}, (q = [] → q' = []) → Xfer s x q m kind →
      Xfer { s with writers := s.writers.erase c, readers := s.readers.erase c, woken := s.woken ++ [c] } x q' m kind := by
    intro x q q' m kind hq hx
    refine ⟨hx.kind, hx.sum, fun hn => hq (hx.all hn), fun t ht => ?_⟩
    obtain ⟨hlt, hact, hT⟩ := hx.part t ht
    exact ⟨hlt, hperm.symm.subset hact, hT⟩
  have hnil : ∀ {q : List Nat}, q = [] → q.erase c = [] := by
    rintro q rfl
    rfl
  refine h.regroup ⟨rfl, rfl, rfl, rfl, rfl, rfl, rfl⟩ (fun w hw => mem_of_mem_erase hw)
    (fun r hr => mem_of_mem_erase hr)
    (fun t ht => hperm.subset ht) ?_ (fun t ht => h.known t (mem_append_left _ ht)) ?_ ?_
  · exact (hperm.append_left s.caller).nodup_iff.2 h.nodup
  · intro x hx hg
    obtain ⟨htaken, hX, hempty⟩ := h.putXfer x hx hg
    exact ⟨htaken, hxfer hnil hX, fun hor => ⟨(hempty hor).1, hnil (hempty hor).2⟩⟩
  · intro x hx hg
    obtain ⟨hdest, hX, hfull⟩ := h.getXfer x hx hg
    exact ⟨hdest, hxfer hnil hX, fun hor => ⟨(hfull hor).1, hnil (hfull hor).2⟩⟩

theorem bytesAsked_of_put (h : isGet s c = false) : s.bytesAsked c = (s.data c).length := by
  unfold bytesAsked
  unfold isGet at h
  split
  · rename_i n heq
    rw [heq] at h
    cases h
  · rfl

/-- A thread that was woken goes on with the number of bytes its descriptor tells. -/
theorem PipeInv.resume (h : PipeInv s) (hb : s.busy = none) (hc : c ∈ s.woken) (code : ℤ) :
    PipeInv { s.ret c code (s.bytesAsked c - (s.desc c).bytesToXfer) with woken := s.woken.erase c } := by
  have hact : c ∈ s.active := by simp [active, hc]
  have hnd := h.nodup
  rw [caller_append_active hb] at hnd
  have hperm : (c :: (s.writers ++ s.readers ++ s.woken.erase c ++ s.held)).Perm s.active := by
    have hcons : (c :: (s.writers ++ s.readers ++ s.woken.erase c)).Perm (s.writers ++ s.readers ++ s.woken) :=
      perm_middle.symm.trans ((perm_cons_erase hc).symm.append_left _)
    exact hcons.append_right s.held
  have hnd' := hperm.nodup_iff.2 hnd
  have hidle : ∀ x, x ∉ s.busy := by simp [hb]
  have h' : PipeInv { s with woken := s.woken.erase c } := by
    refine h.regroup ⟨rfl, rfl, rfl, rfl, rfl, rfl, rfl⟩ (fun w hw => hw) (fun r hr => hr)
      (fun t ht => hperm.subset (mem_cons_of_mem _ ht))
      ?_ (fun t ht => h.known t (mem_append_left _ ht)) (fun x hx => absurd hx (hidle x))
      (fun x hx => absurd hx (hidle x))
    rw [caller_append_active (by exact hb)]
    exact (nodup_cons.1 hnd').2
  refine h'.ret hb (nodup_cons.1 hnd').1 (h.known c (mem_append_right _ hact)).1 code ?_
  show _ = if isGet s c = true then (s.dest c).length else (s.takenFrom c).length
  by_cases hg : isGet s c = true
  · have hok := h.good.reader c hact hg
    have := hok.left
    rw [if_pos hg, hok.pos]
    omega
  · have hg' : isGet s c = false := by simpa using hg
    have hok := h.good.writer c hact hg'
    have := hok.left
    rw [if_neg hg, hok.pos, length_take, bytesAsked_of_put hg']
    omega

/-! ## The rest of a call -/

/-- All bytes have been copied and the call `c` is about to return or to wait. -/
structure Closing (s s' : PipeState β) (c : Nat) : Prop where
  good : Good s' s.active
  same : SameCalls { s with busy := none } s'
  woken : ∃ U, U.Sublist s.held ∧ s'.woken = s.woken ++ U
  served : Served s'
  still : ∀ t, t ∉ s.active → t ≠ c → s'.dest t = s.dest t ∧ s'.takenFrom t = s.takenFrom t
  fits : isGet s c = true → (s'.dest c).length ≤ s.bytesAsked c
  full : s.writers ≠ [] → s'.pipe.bytesUsed = s'.pipe.size
  empty : s.readers ≠ [] → s'.pipe.bytesUsed = 0

theorem Closing.inv (hc : Closing s s' c) (h : PipeInv s) (hcall : c ∈ s.caller) :
    PipeInv s' ∧ s'.busy = none ∧ c ∉ s'.active ∧ (s'.calls c).isSome ∧ s'.returned c = none := by
  obtain ⟨U, hU, hwoken⟩ := hc.woken
  have hbusy : s'.busy = none := hc.same.busy
  have hcalls : s'.calls = s.calls := hc.same.calls
  have hret : s'.returned = s.returned := hc.same.returned
  have hsame : SameCalls s { s' with busy := s.busy } := ⟨hcalls, hc.same.writers, hc.same.readers, rfl, hret⟩
  have hget : ∀ t, isGet s' t = isGet s t := fun t => hsame.isGet t
  have hactive : s'.active = s.writers ++ s.readers ++ (s.woken ++ U) := by
    rw [active, (PipeInv.not_busy hbusy).2, append_nil, hwoken, hc.same.writers, hc.same.readers]
  have hsub : s'.active.Sublist s.active := by
    rw [hactive, active, ← append_assoc]
    exact hU.append_left _
  have hmem : ∀ t ∈ s'.active, t ∈ s.active := fun t ht => hsub.subset ht
  obtain ⟨hknown, hret0⟩ := h.known c (mem_append_left _ hcall)
  have hcact : c ∉ s.active := fun hm => disjoint_of_nodup_append h.nodup hcall hm
  -- who has returned is not touched
  have hold : ∀ t, s.returned t ≠ none ∨ s.calls t = none → t ∉ s.active ∧ t ≠ c := by
    intro t ht
    constructor
    · intro hm
      obtain ⟨hk, hr⟩ := h.known t (mem_append_right _ hm)
      rcases ht with ht | ht
      · exact ht hr
      · simp [ht] at hk
    · rintro rfl
      rcases ht with ht | ht
      · exact ht hret0
      · simp [ht] at hknown
  have hidle : ∀ x, x ∉ s'.busy := by simp [hbusy]
  refine ⟨⟨hc.good.mono hmem, hc.served, ?_, fun t ht => ?_, fun t ht => ?_, fun t code n hn => ?_,
    fun t hg => ?_, fun w hw => ?_, fun r hr => ?_,
    fun hne => hc.full (by rwa [hc.same.writers] at hne), fun hne => hc.empty (by rwa [hc.same.readers] at hne), ?_,
    fun x hx => absurd hx (hidle x), fun x hx => absurd hx (hidle x)⟩, hbusy, fun hm => hcact (hmem c hm),
    by rw [hcalls]; exact hknown,
    by rw [hret]; exact hret0⟩
  · rw [caller_append_active hbusy]
    exact hsub.nodup (nodup_append.1 h.nodup).2.1
  · rw [caller_append_active hbusy] at ht
    rw [hcalls, hret]
    exact h.known t (mem_append_right _ (hmem t ht))
  · rw [hcalls] at ht
    obtain ⟨htaken, hdest, hr⟩ := h.unborn t ht
    obtain ⟨hna, hne⟩ := hold t (.inr ht)
    obtain ⟨hd, hf⟩ := hc.still t hna hne
    exact ⟨hf.trans htaken, hd.trans hdest, by rw [hret]; exact hr⟩
  · rw [hret] at hn
    obtain ⟨hna, hne⟩ := hold t (.inl (by simp [hn]))
    obtain ⟨hd, hf⟩ := hc.still t hna hne
    rw [hget, hd, hf]
    exact h.result t code n hn
  · have hask : s'.bytesAsked t = s.bytesAsked t := hsame.bytesAsked t
    rw [hget] at hg
    rw [hask]
    by_cases htc : t = c
    · subst htc
      exact hc.fits hg
    · by_cases hta : t ∈ s.active
      · have hok := hc.good.reader t hta (by rw [hget]; exact hg)
        have := hok.left
        rw [hok.pos]
        omega
      · rw [(hc.still t hta htc).1]
        exact h.fits t hg
  · rw [hget]
    exact h.writers w (by rwa [hc.same.writers] at hw)
  · rw [hget]
    exact h.readers r (by rwa [hc.same.readers] at hr)
  · rw [hc.same.writers, hc.same.readers]
    exact h.apart

section

variable (h : PipeInv s) (hb : s.busy = none) (hc : c ∉ s.active) (hk : (s.calls c).isSome) (hr : s.returned c = none)

include h hb hc hk hr

/-- The call `c` goes to one of the wait queues. -/
theorem PipeInv.pend
    {d : PipeDesc} {writers readers : List Nat} (hperm : (writers ++ readers).Perm (c :: (s.writers ++ s.readers)))
    (hreader : isGet s c = true → (s.dest c).length = d.buffer ∧ d.buffer + d.bytesToXfer = s.bytesAsked c)
    (hwriter : isGet s c = false → s.takenFrom c = (s.data c).take d.buffer ∧
      d.buffer + d.bytesToXfer = (s.data c).length)
    (hw : ∀ w ∈ writers, isGet s w = false) (hrd : ∀ r ∈ readers, isGet s r = true)
    (hfull : writers ≠ [] → s.pipe.bytesUsed = s.pipe.size)
    (hempty : readers ≠ [] → s.pipe.bytesUsed = 0) (hapart : writers = [] ∨ readers = []) :
    PipeInv { s with desc := update s.desc c d, writers := writers, readers := readers } := by
  have hact : (writers ++ readers ++ s.woken ++ s.held).Perm (c :: s.active) :=
    (hperm.append_right s.woken).append_right s.held
  have hnd := h.nodup
  rw [caller_append_active hb] at hnd
  have hdesc : ∀ t ∈ s.active, update s.desc c d t = s.desc t := fun t ht =>
    update_of_ne (show t ≠ c from fun e => hc (e ▸ ht)) _ _
  have hidle : ∀ x, x ∉ s.busy := by simp [hb]
  refine ⟨⟨⟨h.good.books.ring, h.good.books.whole, h.good.books.order, h.good.books.source,
    h.good.books.dest⟩, fun t ht hg => ?_, fun t ht hg => ?_⟩,
    h.served, ?_, fun t ht => ?_, h.unborn, h.result, h.fits, hw, hrd, hfull, hempty, hapart,
    fun x hx => absurd hx (hidle x), fun x hx => absurd hx (hidle x)⟩
  · rcases mem_cons.1 (hact.subset ht) with rfl | ht
    · obtain ⟨hpos, hleft⟩ := hreader hg
      exact ⟨by simp only [update_self]; exact hpos, by simp only [update_self]; exact hleft⟩
    · have hok := h.good.reader t ht hg
      exact ⟨by simp only [hdesc t ht]; exact hok.pos, by simp only [hdesc t ht]; exact hok.left⟩
  · rcases mem_cons.1 (hact.subset ht) with rfl | ht
    · obtain ⟨hpos, hleft⟩ := hwriter hg
      exact ⟨by simp only [update_self]; exact hpos, by simp only [update_self]; exact hleft⟩
    · have hok := h.good.writer t ht hg
      exact ⟨by simp only [hdesc t ht]; exact hok.pos, by simp only [hdesc t ht]; exact hok.left⟩
  · rw [caller_append_active (by exact hb)]
    exact hact.nodup_iff.2 (nodup_cons.2 ⟨hc, hnd⟩)
  · rw [caller_append_active (by exact hb)] at ht
    rcases mem_cons.1 (hact.subset ht) with rfl | ht
    · exact ⟨hk, hr⟩
    · exact h.known t (mem_append_right _ ht)

/-- What is left over of a write waits for room, or is returned. -/
theorem PipeInv.putRest
    (hget : isGet s c = false) {written : Nat} (hle : written ≤ (s.data c).length)
    (htaken : s.takenFrom c = (s.data c).take written)
    (hfull : s.pipe.bytesUsed = s.pipe.size) (hreaders : s.readers = []) : PipeInv (putRest s c written) := by
  unfold Zephyr.putRest
  split
  · refine h.pend hb hc hk hr (d := ⟨written, (s.data c).length - written⟩) ?_ ?_ ?_ ?_ h.readers (fun _ => hfull)
      h.empty (.inr hreaders)
    · exact perm_enq.append_right _
    · intro hg
      rw [hget] at hg
      cases hg
    · exact fun _ => ⟨htaken, by simp only; omega⟩
    · intro w hw
      rcases mem_enq.1 hw with rfl | hw
      · exact hget
      · exact h.writers w hw
  · refine h.ret hb hc hk _ ?_
    rw [if_neg (by simp [hget]), htaken, length_take]
    omega

theorem PipeInv.getRest
    (hget : isGet s c = true) {read : Nat} (hle : read ≤ s.bytesAsked c) (hdest : (s.dest c).length = read)
    (hempty : s.pipe.bytesUsed = 0) (hwriters : s.writers = []) : PipeInv (getRest s c read) := by
  unfold Zephyr.getRest
  split
  · refine h.pend hb hc hk hr (d := ⟨read, s.bytesAsked c - read⟩) ?_ ?_ ?_ h.writers ?_ h.full (fun _ => hempty)
      (.inl hwriters)
    · exact (perm_enq.append_left _).trans perm_middle
    · exact fun _ => ⟨hdest, by simp only; omega⟩
    · intro hg
      rw [hget] at hg
      cases hg
    · intro r hm
      rcases mem_enq.1 hm with rfl | hm
      · exact hget
      · exact h.readers r hm
  · refine h.ret hb hc hk _ ?_
    rw [if_pos hget, hdest]
    omega

end

/-- The call that has the scheduler locked, and its working set. -/
theorem PipeInv.working (h : PipeInv s) (hx : s.busy = some x) :
    x.call ∈ s.caller ∧ x.call ∉ s.active ∧ s.held = x.xferList ∧
    (∀ t ∈ x.xferList, t ∈ s.active) ∧ x.xferList.Nodup := by
  have hcaller : x.call ∈ s.caller := by simp [caller, hx]
  have hheld : s.held = x.xferList := by simp [held, hx]
  have hnd := (nodup_append.1 h.nodup).2.1
  rw [active, hheld] at hnd
  exact ⟨hcaller, fun hm => disjoint_of_nodup_append h.nodup hcaller hm, hheld, fun t ht => by simp [active, hheld, ht],
    (nodup_append.1 hnd).2.1⟩

/-- The rest of a call that writes (pipes.c:483). -/
theorem PipeInv.putFinish (h : PipeInv s) (hx : s.busy = some x) (hget : isGet s x.call = false) :
    PipeInv (putFinish s x) := by
  obtain ⟨htaken, hX, hempty⟩ := h.putXfer x hx hget
  obtain ⟨hcaller, hc, hheld, hact, hndT⟩ := h.working hx
  have hT : ∀ r ∈ x.xferList, r ∈ s.active ∧ isGet s r = true := fun r hr => ⟨hact r hr, hX.kind r (.inl hr)⟩
  have hgood : Good { s with busy := none } s.active := h.good.congr rfl rfl rfl rfl rfl
  obtain ⟨s1, hs1, hm1, hp1, hw1, hz1, ht1⟩ :=
    serveReaders_spec (c := x.call) (s := { s with busy := none }) x.xferList hgood hT hndT hc
    (fun hne => (hempty (.inl hne)).1) h.served
    (show s.takenFrom x.call = (s.data x.call).take 0 by rw [take_zero]; exact htaken)
    (show 0 + demand s x.xferList ≤ (s.data x.call).length by rw [Nat.zero_add]; exact hX.sum)
  rw [Nat.zero_add] at hs1 ht1
  -- the reader that stays in the queue takes all that is left
  obtain ⟨s2, written, hs2, hm2, hp2, hw2, hz2, ht2, hle2, hpart⟩ : ∃ s2 written,
      toWaiter x.call x.waiter (s1, demand s x.xferList) = (s2, written) ∧
      Moved x.call { s with busy := none } s2 s.active s.active ∧
      s2.pipe = s.pipe ∧ s2.woken = s.woken ++ x.xferList ∧ Served s2 ∧
      s2.takenFrom x.call = (s.data x.call).take written ∧
      written ≤ (s.data x.call).length ∧ (x.waiter ≠ none → written = (s.data x.call).length) := by
    have hm1' := hm1.mono fun t ht => (hT t ht).1
    cases hwt : x.waiter with
    | none => exact ⟨s1, _, rfl, hm1', hp1, hw1, hz1, ht1, hX.sum, by simp⟩
    | some r =>
      obtain ⟨hlt, hact, hrT⟩ := hX.part r hwt
      have hdesc : s1.desc r = s.desc r := hm1.desc r hrT
      have hdata : s1.data x.call = s.data x.call := hm1.same.data x.call
      obtain ⟨s2, k, hs2, hk, hm2, hx2, hp2, hw2, hr2, ht2⟩ := toReader_spec hm1.good hact
        (by rw [hm1.same.isGet]; exact hX.kind r (.inr hwt)) hc (by rw [hp1]; exact (hempty (.inr (by simp [hwt]))).1)
        (show s1.takenFrom x.call = (s1.data x.call).take (demand s x.xferList) by rw [hdata]; exact ht1)
      have hsum := hX.sum
      rw [hdesc, hdata] at hk
      rw [hdata] at ht2
      refine ⟨s2, _, hs2, hm1'.snoc hm2 hact, hp2.trans hp1, hw2.trans hw1, ?_, ht2, by omega, fun _ => by omega⟩
      · rw [Served, hr2]
        exact hz1
  have hdata2 : s2.data x.call = s.data x.call := hm2.same.data x.call
  have hsrc : s2.takenFrom x.call ++ (s2.data x.call).drop written <+: s2.data x.call :=
    ⟨[], by rw [append_nil, ht2, hdata2, take_append_drop]⟩
  obtain ⟨s3, k, hs3, hk, hb3, hc3, hd3, hdst3, hw3, hr3, hsz3, hu3, hf3⟩ := toRing_spec hm2.good.books hsrc
  rw [length_drop, hdata2, hp2] at hk
  have hused := h.good.books.ring.used
  have ht3 : s3.takenFrom x.call = (s.data x.call).take (written + k) := by
    rw [hf3, if_pos rfl, ht2, hdata2, take_append_drop_take]
  have hother : ∀ t, t ≠ x.call → s3.takenFrom t = s2.takenFrom t := fun t ht => by
    rw [hf3, if_neg (Ne.symm ht), append_nil]
  have hgood3 : Good s3 s.active := hm2.good.step hb3 hc3 x.call
    (fun t _ htc => ⟨by rw [hd3], by rw [hdst3], hother t htc⟩) fun hm => absurd hm hc
  have hsame3 := hm2.same.trans hc3
  have hclosing : Closing s s3 x.call := by
    refine ⟨hgood3, hsame3, ⟨x.xferList, by rw [hheld], by rw [hw3, hw2]⟩, by rw [Served, hr3]; exact hz2,
      fun t ht htc => ?_, fun hg => ?_,
      fun hne => ?_, fun hne => ?_⟩
    · obtain ⟨hd, hf⟩ := hm2.still t ht htc
      exact ⟨by rw [hdst3]; exact hd, by rw [hother t htc]; exact hf⟩
    · rw [hget] at hg
      cases hg
    · have := h.full hne
      rw [hu3, hsz3, hp2]
      omega
    · -- a reader waits: the bytes were all taken
      have hzero := h.empty hne
      have hwt : x.waiter ≠ none := fun e => hne (hX.all e)
      have := hpart hwt
      rw [hu3, hp2]
      omega
  obtain ⟨h3, hbusy3, hc3', hk3, hret3⟩ := hclosing.inv h hcaller
  have hget3 : isGet s3 x.call = false := (hsame3.isGet x.call).trans hget
  have hdata3 : s3.data x.call = s.data x.call := hsame3.data x.call
  have hfinish : Zephyr.putFinish s x = if written + k = (s3.data x.call).length then
      if s3.isBlockPut x.call then s3 else s3.ret x.call 0 (written + k) else Zephyr.putRest s3 x.call
        (written + k) := by
    unfold Zephyr.putFinish
    simp only [hs1]
    have hs1' : demand { s with busy := none } x.xferList = demand s x.xferList := rfl
    rw [hs1', hs2]
    simp only [hs3]
  rw [hfinish]
  split
  · split
    · exact h3
    · refine h3.ret hbusy3 hc3' hk3 0 ?_
      rw [if_neg (by simp [hget3]), ht3, length_take]
      omega
  · rename_i hne
    rw [hdata3] at hne
    refine h3.putRest hbusy3 hc3' hk3 hret3 hget3 (by rw [hdata3]; omega) (by rw [hdata3]; exact ht3) ?_ ?_
    · rw [hu3, hsz3, hp2]
      omega
    · rw [hsame3.readers]
      refine hX.all ?_
      by_contra hwt
      have := hpart hwt
      omega

/-! ## The rest of a call that reads -/

/-- The ring buffer is read first. -/
theorem fromRing_spec {L : List Nat} (h : Good s L) (hc : c ∉ L) (hdest : s.dest c = []) :
    ∃ s', fromRing s c = (s', min (s.bytesAsked c) s.pipe.bytesUsed) ∧ Moved c s s' L [] ∧ s'.pipe.size = s.pipe.size ∧
      s'.pipe.bytesUsed = s.pipe.bytesUsed - s.bytesAsked c ∧ s'.woken = s.woken ∧ s'.readied = s.readied ∧
      (s'.dest c).length = min (s.bytesAsked c) s.pipe.bytesUsed := by
  obtain ⟨pipe', hget, hring, hsize, hused, hcont⟩ := pipeBufferGet_spec h.books.ring (s.bytesAsked c)
  have hlen : (s.pipe.contents.take (s.bytesAsked c)).length = min (s.bytesAsked c) s.pipe.bytesUsed := by
    rw [length_take, KPipe.length_contents]
  have hself : (s.dest c).length = 0 := by rw [hdest]; rfl
  unfold fromRing
  simp only [hget, hlen]
  refine ⟨_, rfl, ⟨?_, ⟨rfl, rfl, rfl, rfl, rfl⟩, fun _ _ => rfl, fun t _ htc => ⟨update_of_ne htc _ _, ?_⟩⟩,
    hsize, hused, rfl, rfl, ?_⟩
  · refine h.step ?_ ⟨rfl, rfl, rfl, rfl, rfl⟩ c (fun t _ htc => ⟨rfl, update_of_ne htc _ _, ?_⟩) fun hm => absurd hm hc
    · have hfetched : s.pipe.contents.take (s.bytesAsked c) ++ pipe'.contents = s.pipe.contents ++ [] := by
        rw [hcont, take_append_drop, append_nil]
      exact h.books.copied ⟨rfl, rfl, rfl, rfl, rfl⟩ rfl hring hfetched hfetched
        (fun c => by simpa [Copy.takenFrom] using h.books.source c)
        (dest_snoc (intoDest_self hself))
    · simp [takenFrom, log, intoDest, Copy.takenFrom]
  · simp [takenFrom, log, intoDest, Copy.takenFrom]
  · show (update s.dest c ((s.dest c).take 0 ++ _) c).length = _
    rw [update_self, take_zero, nil_append, hlen]

/-- What holds when the reader has its bytes and `rest` of the working set is left. -/
structure ReadDone (s s' : PipeState β) (x : InXfer) (read : Nat) (rest : List Nat) : Prop where
  moved : Moved x.call { s with busy := none } s' s.active s.active
  served : Served s'
  size : s'.pipe.size = s.pipe.size
  used : s'.pipe.bytesUsed = s.pipe.bytesUsed - s.bytesAsked x.call
  dest : (s'.dest x.call).length = read
  le : read ≤ s.bytesAsked x.call
  woken : ∃ pre U, x.xferList = pre ++ rest ∧ U.Sublist pre ∧ s'.woken = s.woken ++ U
  room : s'.pipe.bytesUsed + demand s' rest ≤ s'.pipe.size
  waiter : ∀ w ∈ x.waiter, read = s.bytesAsked x.call ∧ s'.pipe.size - s'.pipe.bytesUsed - demand s' rest <
    (s'.desc w).bytesToXfer
  short : read < s.bytesAsked x.call → s'.pipe.bytesUsed = 0 ∧ rest = []

theorem PipeInv.read (h : PipeInv s) (hx : s.busy = some x) (hget : isGet s x.call = true) :
    ∃ s1 read1 s2 read2 rest s3 read3, fromRing { s with busy := none } x.call = (s1, read1) ∧
      drainWriters x.call x.xferList (s1, read1) = ((s2, read2), rest) ∧
      fromWaiter x.call x.waiter (s2, read2) = (s3, read3) ∧
      ReadDone s s3 x read3 rest := by
  obtain ⟨hdest, hX, hfull⟩ := h.getXfer x hx hget
  obtain ⟨-, hc, -, hact, hndT⟩ := h.working hx
  have hT : ∀ w ∈ x.xferList, w ∈ s.active ∧ isGet s w = false := fun w hw => ⟨hact w hw, hX.kind w (.inl hw)⟩
  have hgood : Good { s with busy := none } s.active := h.good.congr rfl rfl rfl rfl rfl
  have hused := h.good.books.ring.used
  have hsum := hX.sum
  obtain ⟨s1, hs1, hm1, hsz1, hu1, hw1, hr1, hd1⟩ : ∃ s1, fromRing { s with busy := none } x.call =
      (s1, min (s.bytesAsked x.call) s.pipe.bytesUsed) ∧ Moved x.call { s with busy := none } s1 s.active [] ∧
      s1.pipe.size = s.pipe.size ∧
      s1.pipe.bytesUsed = s.pipe.bytesUsed - s.bytesAsked x.call ∧ s1.woken = s.woken ∧ s1.readied = s.readied ∧
      (s1.dest x.call).length = min (s.bytesAsked x.call) s.pipe.bytesUsed := fromRing_spec hgood hc hdest
  have hask : ∀ {s' : PipeState β}, SameCalls { s with busy := none } s' → s'.bytesAsked x.call = s.bytesAsked x.call :=
    fun hsame => hsame.bytesAsked x.call
  have hdem1 : demand s1 x.xferList = demand s x.xferList := demand_congr fun t _ => hm1.desc t not_mem_nil
  obtain ⟨s2, read2, rest, hs2, hm2, hp2, hz2, hd2, hle2, hsum2, hor, pre, U, hpre, hU, hw2⟩ :=
    drainWriters_spec (c := x.call) x.xferList hm1.good
    (fun w hw => ⟨(hT w hw).1, by rw [hm1.same.isGet]; exact (hT w hw).2⟩) hndT hc
    (by rw [Served, hr1]; exact h.served) hd1
    (by rw [hask hm1.same]; exact min_le_left _ _)
    (fun _ hlt => by rw [hask hm1.same] at hlt; rw [hu1]; omega)
  rw [hask hm1.same] at hle2 hor
  rw [hdem1] at hsum2
  have hm12 := (hm1.trans hm2).mono (show ∀ t ∈ _, t ∈ s.active from fun t ht => (hT t (by simpa using ht)).1)
  have hrest : ∀ t ∈ rest, t ∈ x.xferList := fun t ht => by rw [hpre]; exact mem_append_right _ ht
  -- with writers in the working set the ring buffer was full, and has as much room as was read from it
  have hroom : s2.pipe.bytesUsed + demand s2 rest ≤ s2.pipe.size := by
    rw [hp2, hu1, hsz1]
    rcases hor with rfl | hmore
    · simp only [demand_nil]
      omega
    · by_cases hne : x.xferList = []
      · have : rest = [] := eq_nil_iff_forall_not_mem.2 fun t ht => by have := hrest t ht; simp [hne] at this
        simp only [this, demand_nil]
        omega
      · have := (hfull (.inl hne)).1
        omega
  have hwoken : s2.woken = s.woken ++ U := by rw [hw2, hw1]
  cases hwt : x.waiter with
  | none =>
    refine ⟨s1, _, s2, read2, rest, s2, read2, hs1, hs2, rfl, hm12, hz2, by rw [hp2, hsz1], by rw [hp2, hu1],
      hd2, hle2, ⟨pre, U, hpre, hU, hwoken⟩,
      hroom, by simp [hwt], fun hlt => ?_⟩
    obtain rfl := hor.resolve_right (by omega)
    rw [demand_nil] at hsum2
    rw [hp2, hu1]
    exact ⟨by omega, rfl⟩
  | some w =>
    obtain ⟨hpart, hact, hwT⟩ := hX.part w hwt
    have hfull' := (hfull (.inr (by simp [hwt]))).1
    have hdescw : s2.desc w = s.desc w := by
      rw [hm2.desc w hwT, hm1.desc w not_mem_nil]
    by_cases hlt : read2 < s.bytesAsked x.call
    · -- the writer that stays in the queue gives what is missing
      obtain rfl := hor.resolve_right (by omega)
      rw [demand_nil] at hsum2
      obtain ⟨s3, k, hs3, hk, hm3, hx3, hp3, hw3, hr3, hd3⟩ := fromWriter_spec hm12.good hact
        (by rw [hm12.same.isGet]; exact hX.kind w (.inr hwt)) hc (by rw [hp2, hu1]; omega) hd2
      rw [hask hm12.same, hdescw] at hk
      rw [hdescw] at hx3
      refine ⟨s1, _, s2, read2, [], s3, read2 + k, hs1, hs2, ?_, hm12.snoc hm3 hact,
        by rw [Served, hr3]; exact hz2, by rw [hp3, hp2, hsz1],
        by rw [hp3, hp2, hu1], hd3, by omega, ⟨pre, U, hpre, hU, hw3.trans hwoken⟩, ?_, fun w' hw' => ?_,
        fun hlt' => ?_⟩
      · simp only [fromWaiter, hask hm12.same, if_pos hlt]
        exact hs3
      · rw [demand_nil, hp3, hp2, hu1, hsz1]
        omega
      · obtain rfl : w = w' := by simpa [hwt] using hw'
        rw [demand_nil, hp3, hp2, hu1, hsz1, hx3]
        omega
      · exact absurd hlt' (by omega)
    · refine ⟨s1, _, s2, read2, rest, s2, read2, hs1, hs2, ?_, hm12, hz2, by rw [hp2, hsz1], by rw [hp2, hu1],
        hd2, hle2,
        ⟨pre, U, hpre, hU, hwoken⟩, hroom, fun w' hw' => ?_, fun hlt' => absurd hlt' hlt⟩
      · simp only [fromWaiter, hask hm12.same, if_neg hlt]
      · obtain rfl : w = w' := by simpa [hwt] using hw'
        rw [hp2, hu1, hsz1, hdescw]
        omega

/-- The rest of a call that reads (pipes.c:613). -/
theorem PipeInv.getFinish (h : PipeInv s) (hx : s.busy = some x) (hget : isGet s x.call = true) :
    PipeInv (getFinish s x) := by
  obtain ⟨hdest, hX, hfull⟩ := h.getXfer x hx hget
  obtain ⟨hcaller, -, hheld, hact, hndT⟩ := h.working hx
  obtain ⟨s1, read1, s2, read2, rest, s3, read, hs1, hs2, hs3, hd⟩ := h.read hx hget
  obtain ⟨pre, U, hpre, hU, hw3⟩ := hd.woken
  have hrest : ∀ w ∈ rest, w ∈ s.active ∧ isGet s3 w = false := fun w hw => by
    have hm : w ∈ x.xferList := by rw [hpre]; exact mem_append_right _ hw
    exact ⟨hact w hm, by rw [hd.moved.same.isGet]; exact hX.kind w (.inl hm)⟩
  have hndr : rest.Nodup := by
    rw [hpre] at hndT
    exact (nodup_append.1 hndT).2.1
  obtain ⟨s4, hs4, hm4, hsz4, hu4, hd4, hz4, U', hU', hw4⟩ :=
    refillWriters_spec rest hd.moved.good hrest hndr hd.served hd.room
  have hm34 := (hd.moved.trans (hm4 x.call)).mono
    (show ∀ t ∈ _, t ∈ s.active from fun t ht => (mem_append.1 ht).elim id fun hm => (hrest t hm).1)
  have hsub : (U ++ U').Sublist x.xferList := by rw [hpre]; exact hU.append hU'
  -- with a writer left in the queue the ring buffer is filled up
  obtain ⟨s5, hs5, hm5, hsz5, hd5, hz5, hw5, hnone, hsome⟩ : ∃ s5, refillWaiter x.waiter s4 = s5 ∧
      Moved x.call { s with busy := none } s5 s.active s.active ∧ s5.pipe.size = s4.pipe.size ∧
      s5.dest = s4.dest ∧ Served s5 ∧
      s5.woken = s4.woken ∧ (x.waiter = none → s5.pipe = s4.pipe) ∧
      (x.waiter ≠ none → s5.pipe.bytesUsed = s5.pipe.size) := by
    cases hwt : x.waiter with
    | none => exact ⟨s4, rfl, hm34, rfl, rfl, hz4, rfl, fun _ => rfl, by simp⟩
    | some w =>
      obtain ⟨-, hact, hwT⟩ := hX.part w hwt
      have hlt := (hd.waiter w hwt).2
      have hdesc : s4.desc w = s3.desc w := (hm4 x.call).desc w fun hm =>
        hwT (by rw [hpre]; exact mem_append_right _ hm)
      obtain ⟨k, hk, hm5, hx5, hsz5, hu5, hd5, hw5, hr5⟩ := refill_spec hm34.good hact
        (by rw [hm34.same.isGet]; exact hX.kind w (.inr hwt))
      have hroom := hd.room
      refine ⟨refill s4 w, rfl, hm34.snoc (hm5 x.call) hact, hsz5, hd5, by rw [Served, hr5]; exact hz4, hw5,
        by simp, fun _ => ?_⟩
      · rw [hdesc, hsz4, hu4] at hk
        rw [hu5, hsz5, hsz4, hu4]
        omega
  have hdest5 : (s5.dest x.call).length = read := by rw [hd5, hd4, hd.dest]
  have hclosing : Closing s s5 x.call := by
    refine ⟨hm5.good, hm5.same, ⟨U ++ U', by rw [hheld]; exact hsub, by rw [hw5, hw4, hw3, append_assoc]⟩,
      hz5, fun t ht htc => hm5.still t ht htc,
      fun _ => by rw [hdest5]; exact hd.le, fun hne => hsome fun e => hne (hX.all e), fun hne => ?_⟩
    -- a reader waits: there was nothing to read and nobody to read from
    have hidle : x.xferList = [] ∧ x.waiter = none := by
      by_contra hno
      rw [not_and_or] at hno
      exact hne (hfull hno).2
    have hrnil : rest = [] := by
      rw [hidle.1] at hpre
      exact (append_eq_nil_iff.1 hpre.symm).2
    have hzero := h.empty hne
    rw [hnone hidle.2, hu4, hrnil, demand_nil, hd.used]
    omega
  obtain ⟨h5, hbusy5, hc5, hk5, hret5⟩ := hclosing.inv h hcaller
  have hget5 : isGet s5 x.call = true := (hm5.same.isGet x.call).trans hget
  have hask5 : s5.bytesAsked x.call = s.bytesAsked x.call := hm5.same.bytesAsked x.call
  have hfinish : Zephyr.getFinish s x = if read = s5.bytesAsked x.call then
    s5.ret x.call 0 read else Zephyr.getRest s5 x.call read := by
    unfold Zephyr.getFinish
    simp only [hs1, hs2, hs3, hs4, hs5]
  rw [hfinish]
  split
  · refine h5.ret hbusy5 hc5 hk5 0 ?_
    rw [if_pos hget5, hdest5]
  · rename_i hne
    rw [hask5] at hne
    have hle := hd.le
    obtain ⟨hzero, hrnil⟩ := hd.short (by omega)
    have hwt : x.waiter = none := by
      by_contra hwt
      obtain ⟨w, hw⟩ := ne_none_iff_exists'.1 hwt
      exact hne (hd.waiter w hw).1
    refine h5.getRest hbusy5 hc5 hk5 hret5 hget5 (by rw [hask5]; exact hle) hdest5 ?_ ?_
    · rw [hnone hwt, hu4, hrnil, demand_nil, hzero]
    · rw [hm5.same.writers]
      exact hX.all hwt

/-! ## Runs -/

theorem PipeInv.exec (h : PipeInv s) (op : PipeOp β) (hop : op.Legal s) : ∃ s', op.exec s = some s' ∧ PipeInv s' := by
  cases op with
  | call c k =>
    obtain ⟨hb, hc⟩ := hop
    rw [isNone_iff_eq_none] at hb hc
    obtain ⟨htaken, hdest, hret⟩ := h.unborn c hc
    have hact : c ∉ s.active := fun hm => by
      have := (h.known c (mem_append_right _ hm)).1
      simp [hc] at this
    have h' : PipeInv (Zephyr.withCall s c k.normal) := h.withCall hc hb
    have hknown : ((Zephyr.withCall s c k.normal).calls c).isSome := by simp [Zephyr.withCall]
    refine ⟨_, rfl, ?_⟩
    by_cases hg : isGet (Zephyr.withCall s c k.normal) c = true
    · rw [show isGet { s with calls := update s.calls c (some k.normal) } c = true from hg, if_pos rfl]
      exact h'.getBegin hb hact hknown hret hg hdest
    · have hg' : isGet (Zephyr.withCall s c k.normal) c = false := by simpa using hg
      rw [show isGet { s with calls := update s.calls c (some k.normal) } c = false from hg', if_neg (by simp)]
      exact h'.putBegin hb hact hknown hret hg' htaken
  | finish =>
    obtain ⟨x, hx⟩ := isSome_iff_exists.1 hop
    refine ⟨if isGet s x.call then Zephyr.getFinish s x else Zephyr.putFinish s x, by rw [PipeOp.exec, hx]; rfl, ?_⟩
    by_cases hg : isGet s x.call = true
    · rw [if_pos hg]
      exact h.getFinish hx hg
    · rw [if_neg hg]
      exact h.putFinish hx (by simpa using hg)
  | expire c => exact ⟨_, rfl, h.expire hop.1⟩
  | resume c => exact ⟨_, rfl, h.resume (by simpa using hop.1) hop.2 _⟩

theorem initPipe_inv (buffer : Nat → β) (size : Nat) : PipeInv (initPipe buffer size) where
  good := {
    books := ⟨⟨Nat.zero_le _, Nat.zero_le _, by simp [initPipe]⟩, rfl, rfl, fun _ => nil_prefix, fun _ => rfl⟩
    reader := fun r hr => by simp [active, held, initPipe] at hr
    writer := fun w hw => by simp [active, held, initPipe] at hw }
  served := by simp [Served, initPipe]
  nodup := by simp [active, held, caller, initPipe]
  known := by simp [active, held, caller, initPipe]
  unborn _ _ := ⟨rfl, rfl, rfl⟩
  result _ _ _ h := by simp [initPipe] at h
  fits _ _ := Nat.zero_le _
  writers := by simp [initPipe]
  readers := by simp [initPipe]
  full h := absurd rfl h
  empty _ := rfl
  apart := .inl rfl
  putXfer := by simp [initPipe]
  getXfer := by simp [initPipe]

theorem pipeRun_inv (buffer : Nat → β) (size : Nat) {ops : List (PipeOp β)}
    (hops : Runs.Along PipeOp.exec (fun s op => op.Legal s) (initPipe buffer size) ops) :
    ∃ s, Runs.run PipeOp.exec (initPipe buffer size) ops = some s ∧ PipeInv s :=
  Runs.run_total (fun _ op hs hop => hs.exec op hop) (initPipe_inv buffer size) hops

/-- Where the bytes are that were taken from the writers. -/
structure Conserved (s : PipeState β) : Prop where
  /-- from each writer the first bytes of its data -/
  source : ∀ c, s.takenFrom c <+: s.data c
  /-- what was taken has been given to readers, or is in the ring buffer -/
  whole : s.given ++ s.pipe.contents = s.taken
  order : s.fetched ++ s.pipe.contents = s.stored
  dest : ∀ c, s.dest c = s.givenTo c
  fits : ∀ c, isGet s c = true → (s.dest c).length ≤ s.bytesAsked c
  /-- `*bytes_written` and `*bytes_read` -/
  counts : ∀ c code n, s.returned c = some (code, n) → n = if isGet s c then
    (s.givenTo c).length else (s.takenFrom c).length

/-- **No byte is lost, doubled or changed**, whatever calls are made and whoever times out, in a pipe of any size. -/
theorem pipe_conserves (buffer : Nat → β) (size : Nat) (ops : List (PipeOp β))
    (hops : Runs.Along PipeOp.exec (fun s op => op.Legal s) (initPipe buffer size) ops) :
    ∃ s, Runs.run PipeOp.exec (initPipe buffer size) ops = some s ∧ Conserved s := by
  obtain ⟨s, hs, h⟩ := pipeRun_inv buffer size hops
  refine ⟨s, hs, h.good.books.source, h.good.books.whole, h.good.books.order, h.good.books.dest, h.fits,
    fun c code n hn => ?_⟩
  rw [← h.good.books.dest]
  exact h.result c code n hn

/-- Four bytes are written to a buffer of two; one is read, and meanwhile the writer times out. -/
def lateOps : List (PipeOp Nat) :=
  [.call 0 ⟨.put [1, 2, 3, 4], 0, 4, .ticks⟩, .finish, .call 1 ⟨.get 1, 0, 1, .forever⟩, .expire 0, .finish, .resume 0]

theorem pipe_conserves_late : ∃ s, Runs.run PipeOp.exec (initPipe (fun _ => 0) 2) lateOps = some s ∧ Conserved s ∧
    s.returned 0 = some (eagain, 3) ∧ s.dest 1 = [1] := by
  refine Runs.exists_end (P := fun s => s.returned 0 = some (eagain, 3) ∧ s.dest 1 = [1]) (by decide +kernel)
    fun s hs hres => ?_
  exact ⟨Runs.at_end (pipe_conserves (fun _ => 0) 2 lateOps (by decide +kernel)) hs, hres⟩

/-- Who may wait, by how full the ring buffer is. -/
structure WaitersOk (s : PipeState β) : Prop where
  writers : s.writers ≠ [] → s.pipe.bytesUsed = s.pipe.size
  readers : s.readers ≠ [] → s.pipe.bytesUsed = 0
  apart : s.writers = [] ∨ s.readers = []
  used : s.pipe.bytesUsed ≤ s.pipe.size
  index : 0 < s.pipe.size → s.pipe.writeIndex = (s.pipe.readIndex + s.pipe.bytesUsed) % s.pipe.size

/-- **Writers wait for a full ring buffer and readers for an empty one**, and whoever was taken for served has been. -/
theorem pipe_waiters (buffer : Nat → β) (size : Nat) (ops : List (PipeOp β))
    (hops : Runs.Along PipeOp.exec (fun s op => op.Legal s) (initPipe buffer size) ops) :
    ∃ s, Runs.run PipeOp.exec (initPipe buffer size) ops = some s ∧ (s.busy = none → WaitersOk s) ∧
    ∀ e ∈ s.readied, e.2 = 0 := by
  obtain ⟨s, hs, h⟩ := pipeRun_inv buffer size hops
  exact ⟨s, hs, fun _ => ⟨h.full, h.empty, h.apart, h.good.books.ring.used, fun _ => h.good.books.ring.write⟩, h.served⟩

/-- A writer of which part was written is served by a read of all. -/
theorem pipe_waiters_served : ∃ s, Runs.run PipeOp.exec (initPipe (fun _ => 0) 2)
      [.call 0 ⟨.put [1, 2, 3, 4], 0, 4, .ticks⟩, .finish, .call 1 ⟨.get 3, 0, 3, .noWait⟩, .finish] = some s ∧
    s.busy = none ∧ WaitersOk s ∧ s.readied = [(0, 0)] := by
  refine Runs.exists_end (P := fun s => s.busy.isNone ∧ s.readied = [(0, 0)]) (by decide +kernel) ?_
  rintro s hs ⟨hbusy, hready⟩
  obtain ⟨hok, -⟩ := Runs.at_end (pipe_waiters (fun _ => 0) 2 _ (by decide +kernel)) hs
  rw [isNone_iff_eq_none] at hbusy
  exact ⟨hbusy, hok hbusy, hready⟩

end Zephyr
