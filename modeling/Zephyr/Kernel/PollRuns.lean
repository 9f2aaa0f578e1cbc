import Zephyr.Kernel.Poll
import Zephyr.Lib.Runs
/-!
# Registered events stay on their lists

The lists `L` have the events that were registered and neither taken off by a signaller nor by their own call, in
order of priority (`PollInv`). An event that a signaller took off is taken off once more by its call; this does
nothing as long as the two nodes it was between are next to each other, and otherwise cuts out or brings back
whatever is or was there.
-/
namespace Zephyr

open Ring StableQueue Function Option

variable {T E : Nat} {prio : Option (Fin T) → ℤ} {kind : Nat → PollKind} {s : PollState T E}
    {L : Nat → List (Fin E)} {t : Fin T} {e : Fin E} {f : PollCall E} {o : Nat}

/-! ## The list of an object -/

/-- An event that belongs behind all others is appended. -/
theorem append_spec {p : Fin E → ℤ} (h : DumbRep s.links L) (he : ∀ j, e ∉ L j) (hall : ∀ a ∈ L o, p a ≤ p e) :
    DumbRep (sysDlistAppend s.links (.head o) (.thread e)) (update L o (enq p e (L o))) := by
  obtain ⟨m, hm, hrep⟩ := priqDumbAddLoop_spec h he (show L o = L o ++ [] by simp) hall one_pos
  obtain rfl : sysDlistAppend s.links (.head o) (.thread e) = m := by simpa [priqDumbAddLoop] using hm
  exact hrep

/-- **`add_event` (poll.c:76)** keeps the order. -/
theorem addEvent_spec (h : DumbRep s.links L) (he : ∀ j, e ∉ L j) {p : Fin E → ℤ}
    (hp : p = fun x => prio (update s.poller e (some t) x)) (hord : Ordered p (L o)) :
    ∃ m, addEvent prio s o e t = some m ∧ DumbRep m (update L o (enq p e (L o))) := by
  have htail : sysDlistPeekTail s.links (.head o) = (L o).getLast?.map QNode.thread := by
    rw [sysDlistPeekTail_eq (h.ring o), qnodes, List.getLast?_map]
  unfold addEvent
  rw [htail, ← hp]
  rcases List.eq_nil_or_concat (L o) with hL | ⟨l, x, hL⟩
  · refine ⟨_, by rw [hL]; rfl, append_spec h he ?_⟩
    simp [hL]
  · rw [List.concat_eq_append] at hL
    simp only [hL, List.getLast?_concat, map_some, isT1HigherPrioThanT2_iff]
    rw [← hL]
    by_cases hlt : p x < p e
    · refine ⟨_, if_pos hlt, append_spec h he fun a ha => ?_⟩
      rw [hL, Ordered, List.pairwise_append] at hord
      rw [hL] at ha
      rcases List.mem_append.1 ha with ha | ha
      · exact (hord.2.2 a ha x (by simp)).trans hlt.le
      · rw [List.mem_singleton.1 ha]
        exact hlt.le
    · rw [if_neg hlt]
      exact priqDumbAdd_spec p h he

/-! ## The invariant -/

structure PollInv (prio : Option (Fin T) → ℤ) (s : PollState T E) (L : Nat → List (Fin E)) : Prop where
  rep : DumbRep s.links L
  nodup : ∀ t, ∀ f ∈ s.calls t, f.events.Nodup ∧ f.registered ≤ f.events.length
  apart : ∀ t t', ∀ f ∈ s.calls t, ∀ f' ∈ s.calls t', ∀ e ∈ f.events, e ∈ f'.events → t = t'
  idle : ∀ t, ∀ f ∈ s.calls t, f.timeout = .noWait → f.registered = 0
  scan : ∀ t, ∀ f ∈ s.calls t, ∀ ii, f.phase = .scan ii → f.registered ≤ ii ∧
    (f.timeout ≠ .noWait → f.isPolling = true → f.registered = ii)
  linked : ∀ t, ∀ f ∈ s.calls t, ∀ e ∈ f.events.take f.registered, s.signalled e = false → ∀ o ∈ s.obj e, e ∈ L o
  mem : ∀ o, ∀ e ∈ L o, s.obj e = some o ∧ s.signalled e = false ∧ ∃ t ∈ s.poller e, ∃ f ∈ s.calls t,
    e ∈ f.events.take f.registered
  order : ∀ o, Ordered (fun e => prio (s.poller e)) (L o)

theorem mem_setCall {u : Fin T} {f' g : PollCall E} :
    g ∈ (s.setCall t f').calls u ↔ u = t ∧ g = f' ∨ u ≠ t ∧ g ∈ s.calls u := by
  by_cases hu : u = t
  · subst hu
    simp [PollState.setCall, eq_comm]
  · simp [PollState.setCall, hu]

theorem take_succ_of_nodup {l : List (Fin E)} {n : Nat} (hl : l.Nodup) (hn : l[n]? = some e) :
    l.take (n + 1) = l.take n ++ [e] ∧ e ∉ l.take n := by
  obtain ⟨hlt, hget⟩ := List.getElem?_eq_some_iff.1 hn
  have htake : l.take (n + 1) = l.take n ++ [e] := by rw [List.take_succ_eq_append_getElem hlt, hget]
  refine ⟨htake, fun hm => ?_⟩
  have hnd := hl.sublist (List.take_sublist (n + 1) l)
  rw [htake, List.nodup_append] at hnd
  exact hnd.2.2 e hm e (by simp) rfl

/-- The event can be taken off a second time. -/
def PollState.Settled (s : PollState T E) (e : Fin E) : Prop :=
  s.signalled e = true → s.obj e ≠ none → s.links.next (s.links.prev (.thread e)) = s.links.next (.thread e) ∧
    s.links.prev (s.links.next (.thread e)) = s.links.prev (.thread e)

namespace PollInv

section

variable (h : PollInv prio s L)

include h

/-- Events that no call has are on no list. -/
theorem not_mem (he : ∀ t, ∀ f ∈ s.calls t, e ∉ f.events.take f.registered) (o : Nat) : e ∉ L o := by
  intro hm
  obtain ⟨-, -, t, -, f, hf, hmem⟩ := h.mem o e hm
  exact he t f hf hmem

theorem setReady (he : ∀ o, e ∉ L o) (b : BitVec 4) : PollInv prio (setEventReady s e b) L := by
  have hpoller : ∀ o, ∀ x ∈ L o, update s.poller e none x = s.poller x := fun o x hx =>
    update_of_ne (ne_of_mem_of_not_mem hx (he o)) _ _
  refine { h with mem := fun o x hx => ?_, order := fun o => ?_ }
  · obtain ⟨ho, hs, u, hu, hrest⟩ := h.mem o x hx
    exact ⟨ho, hs, u, by simpa [setEventReady, hpoller o x hx] using hu, hrest⟩
  · refine (h.order o).imp_of_mem fun {a b} ha hb hab => ?_
    simp only [setEventReady, hpoller o a ha, hpoller o b hb]
    exact hab

/-! ## Registering and clearing -/

/-- **`register_event` (poll.c:102)** of an event that is on no list. -/
theorem registerEvent_spec (he : ∀ o, e ∉ L o) (t : Fin T) :
    ∃ s1 L', registerEvent prio s e t = some s1 ∧ s1.calls = s.calls ∧ s1.obj = s.obj ∧ s1.cond = s.cond ∧
    s1.signalled = update s.signalled e false ∧ s1.poller = update s.poller e (some t) ∧ DumbRep s1.links L' ∧
      (∀ o x, x ∈ L' o ↔ x ∈ L o ∨ x = e ∧ s.obj e = some o) ∧
      ∀ o, Ordered (fun x => prio (s1.poller x)) (L' o) := by
  have hord : ∀ o, Ordered (fun x => prio (update s.poller e (some t) x)) (L o) := fun o =>
    (h.order o).imp_of_mem fun {a b} ha hb hab => by
      simp only [update_of_ne (ne_of_mem_of_not_mem ha (he o)), update_of_ne (ne_of_mem_of_not_mem hb (he o))]
      exact hab
  unfold registerEvent
  cases hobj : s.obj e with
  | none => exact ⟨_, L, rfl, rfl, rfl, rfl, rfl, rfl, h.rep, by simp, hord⟩
  | some o =>
    obtain ⟨m, hm, hrep⟩ := addEvent_spec h.rep he rfl (hord o)
    simp only [hm, map_some]
    refine ⟨_, _, rfl, rfl, rfl, rfl, rfl, rfl, hrep, fun o' x => ?_, fun o' => ?_⟩
    · by_cases ho : o' = o
      · subst ho
        simp [or_comm]
      · simp [ho, Ne.symm ho]
    · by_cases ho : o' = o
      · subst ho
        simp only [update_self]
        exact (hord o').enq
      · simp only [update_of_ne ho]
        exact hord o'

/-- `t` makes the call `f'`, whose events no other call has; the lists are `L'` now. -/
theorem put {s' : PollState T E} {L' : Nat → List (Fin E)} {f' : PollCall E} (hcalls : s'.calls = s.calls)
    (hnd : f'.events.Nodup)
    (hapart : ∀ u, u ≠ t → ∀ g ∈ s.calls u, ∀ x ∈ f'.events, x ∉ g.events) (hle : f'.registered ≤ f'.events.length)
    (hidle : f'.timeout = .noWait → f'.registered = 0) (hscan : ∀ ii, f'.phase = .scan ii → f'.registered ≤ ii ∧
      (f'.timeout ≠ .noWait → f'.isPolling = true → f'.registered = ii))
    (hrep : DumbRep s'.links L') (hord : ∀ o, Ordered (fun x => prio (s'.poller x)) (L' o))
    (hlinked : ∀ x ∈ f'.events.take f'.registered, s'.signalled x = false → ∀ o ∈ s'.obj x, x ∈ L' o)
    (hother : ∀ u, u ≠ t → ∀ g ∈ s.calls u, ∀ x ∈ g.events.take g.registered, s'.signalled x = false →
      ∀ o ∈ s'.obj x, x ∈ L' o) (hmem : ∀ o, ∀ x ∈ L' o, s'.obj x = some o ∧ s'.signalled x = false ∧
      (s'.poller x = some t ∧ x ∈ f'.events.take f'.registered ∨ s'.poller x = s.poller x ∧ x ∈ L o ∧
        ∀ f ∈ s.calls t, x ∉ f.events)) :
    PollInv prio (s'.setCall t f') L' := by
  refine ⟨hrep, fun u g hg => ?_, fun u u' g hg g' hg' x hx hx' => ?_, fun u g hg => ?_, fun u g hg => ?_,
    fun u g hg => ?_, fun o x hx => ?_, hord⟩
  · rcases mem_setCall.1 hg with ⟨rfl, rfl⟩ | ⟨-, hg⟩
    · exact ⟨hnd, hle⟩
    · exact h.nodup u g (hcalls ▸ hg)
  · rcases mem_setCall.1 hg with ⟨hu, rfl⟩ | ⟨hu, hold⟩ <;> rcases mem_setCall.1 hg' with ⟨hu', rfl⟩ | ⟨hu', hold'⟩
    · rw [hu, hu']
    · exact absurd hx' (hapart u' hu' g' (hcalls ▸ hold') x hx)
    · exact absurd hx (hapart u hu g (hcalls ▸ hold) x hx')
    · exact h.apart u u' g (hcalls ▸ hold) g' (hcalls ▸ hold') x hx hx'
  · rcases mem_setCall.1 hg with ⟨rfl, rfl⟩ | ⟨-, hg⟩
    · exact hidle
    · exact h.idle u g (hcalls ▸ hg)
  · rcases mem_setCall.1 hg with ⟨rfl, rfl⟩ | ⟨-, hg⟩
    · exact hscan
    · exact h.scan u g (hcalls ▸ hg)
  · rcases mem_setCall.1 hg with ⟨rfl, rfl⟩ | ⟨hu, hg⟩
    · exact hlinked
    · exact hother u hu g (hcalls ▸ hg)
  · obtain ⟨ho, hs, hor⟩ := hmem o x hx
    refine ⟨ho, hs, ?_⟩
    rcases hor with ⟨hp, hx'⟩ | ⟨hp, hxL, hxf⟩
    · exact ⟨t, hp, f', mem_setCall.2 (.inl ⟨rfl, rfl⟩), hx'⟩
    · obtain ⟨-, -, u, hu, g, hg, hx'⟩ := h.mem o x hxL
      refine ⟨u, hp.trans hu, g, mem_setCall.2 (.inr ⟨?_, hcalls ▸ hg⟩), hx'⟩
      rintro rfl
      exact hxf g hg (List.mem_of_mem_take hx')

/-- **`clear_event_registration` (poll.c:131)**, whether or not a signaller was there before. -/
theorem unlinked (hlinked : s.signalled e = false → ∀ o ∈ s.obj e, e ∈ L o) (hunmoved : s.Settled e) :
    ∃ L', DumbRep (clearEventRegistration s e).links L' ∧ (∀ o x, x ∈ L' o ↔ x ∈ L o ∧ x ≠ e) ∧
    ∀ o, (L' o).Sublist (L o) := by
  have hstay : (∀ o, e ∉ L o) → (clearEventRegistration s e).links = s.links →
      ∃ L', DumbRep (clearEventRegistration s e).links L' ∧ (∀ o x, x ∈ L' o ↔ x ∈ L o ∧ x ≠ e) ∧
      ∀ o, (L' o).Sublist (L o) := by
    intro he hsame
    rw [hsame]
    exact ⟨L, h.rep, fun o x => ⟨fun hx => ⟨hx, ne_of_mem_of_not_mem hx (he o)⟩, And.left⟩,
      fun o => List.Sublist.refl _⟩
  cases hobj : s.obj e with
  | none =>
    refine hstay (fun o hm => ?_) (by simp [clearEventRegistration, hobj])
    have := (h.mem o e hm).1
    simp [hobj] at this
  | some o =>
    have hlinks : (clearEventRegistration s e).links = priqDumbRemove s.links e := by
      simp [clearEventRegistration, hobj, priqDumbRemove]
    cases hsig : s.signalled e with
    | true =>
      obtain ⟨hnext, hprev⟩ := hunmoved hsig (by simp [hobj])
      refine hstay (fun o hm => ?_) (by rw [hlinks, priqDumbRemove, sysDlistRemove_eq, Links.unlink_eq_self hnext hprev])
      have := (h.mem o e hm).2.1
      simp [hsig] at this
    | false =>
      have hm := hlinked hsig o hobj
      rw [hlinks]
      refine ⟨_, priqDumbRemove_spec h.rep hm, fun o' x => ?_, fun o' => ?_⟩
      · by_cases ho : o' = o
        · subst ho
          rw [update_self, (h.rep.nodup o').mem_erase_iff, and_comm]
        · rw [update_of_ne ho]
          refine ⟨fun hx => ⟨hx, ?_⟩, And.left⟩
          rintro rfl
          exact ho (some_inj.1 ((h.mem o' x hx).1.symm.trans hobj))
      · by_cases ho : o' = o
        · subst ho
          rw [update_self]
          exact List.erase_sublist
        · rw [update_of_ne ho]

section

variable (hf : f ∈ s.calls t)

include hf

/-- No other call has an event of this one. -/
theorem alone : ∀ u, u ≠ t → ∀ g ∈ s.calls u, ∀ x ∈ f.events, x ∉ g.events :=
  fun u hu g hg x hx hx' => hu (h.apart u t g hg f hf x hx' hx)

/-- What is on a list belongs to the call whose event it is. -/
theorem mem_call {x : Fin E} (hx : x ∈ L o) (hxf : x ∈ f.events) :
    s.poller x = some t ∧ x ∈ f.events.take f.registered := by
  obtain ⟨-, -, u, hu, g, hg, hmem⟩ := h.mem o x hx
  obtain rfl : u = t := h.apart u t g hg f hf x (List.mem_of_mem_take hmem) hxf
  obtain rfl : f = g := some_inj.1 (hf.symm.trans hg)
  exact ⟨hu, hmem⟩

theorem mem_call_or {x : Fin E} (hx : x ∈ L o) :
    s.poller x = some t ∧ x ∈ f.events.take f.registered ∨ x ∈ L o ∧ ∀ g ∈ s.calls t, x ∉ g.events := by
  by_cases hxf : x ∈ f.events
  · exact .inl (h.mem_call hf hx hxf)
  · refine .inr ⟨hx, fun g hg => ?_⟩
    obtain rfl : f = g := some_inj.1 (hf.symm.trans hg)
    exact hxf

/-- A call goes on with the same events. -/
theorem setCall {f' : PollCall E} (hev : f'.events = f.events) (hreg : f'.registered = f.registered)
    (hto : f'.timeout = f.timeout) (hscan : ∀ ii, f'.phase = .scan ii → f'.registered ≤ ii ∧
      (f'.timeout ≠ .noWait → f'.isPolling = true → f'.registered = ii)) :
    PollInv prio (s.setCall t f') L := by
  refine h.put rfl ?_ ?_ ?_ ?_ hscan h.rep h.order ?_ (fun u _ => h.linked u) fun o x hx =>
    ⟨(h.mem o x hx).1, (h.mem o x hx).2.1, ?_⟩
  · rw [hev]
    exact (h.nodup t f hf).1
  · rw [hev]
    exact h.alone hf
  · rw [hev, hreg]
    exact (h.nodup t f hf).2
  · rw [hto, hreg]
    exact h.idle t f hf
  · rw [hev, hreg]
    exact h.linked t f hf
  · rw [hev, hreg]
    exact (h.mem_call_or hf hx).imp_right fun hx' => ⟨rfl, hx'⟩

/-- The next event of a call that is still polling is registered. -/
theorem register {ii : Nat} (hphase : f.phase = .scan ii) (hne : f.events[ii]? = some e)
    (hto : f.timeout ≠ .noWait) (hpoll : f.isPolling = true) :
    ∃ s1 L', registerEvent prio s e t = some s1 ∧ s1.calls = s.calls ∧ s1.obj = s.obj ∧ s1.cond = s.cond ∧
      s1.signalled = update s.signalled e false ∧
      PollInv prio (s1.setCall t { f with phase := .scan (ii + 1), registered := f.registered + 1 }) L' := by
  have hreg : f.registered = ii := (h.scan t f hf ii hphase).2 hto hpoll
  have hlt := (List.getElem?_eq_some_iff.1 hne).1
  have hmemf : e ∈ f.events := List.mem_of_getElem? hne
  obtain ⟨htake, heii⟩ := take_succ_of_nodup (h.nodup t f hf).1 hne
  have he : ∀ o, e ∉ L o := fun o hm => heii (hreg ▸ (h.mem_call hf hm hmemf).2)
  obtain ⟨s1, L', hs1, hcalls, hobj, hcond, hsig, hpoller, hrep, hL', hord⟩ := h.registerEvent_spec he t
  refine ⟨s1, L', hs1, hcalls, hobj, hcond, hsig,
    h.put hcalls (h.nodup t f hf).1 (h.alone (f := f) hf) ?_ (fun e => absurd e hto) ?_ hrep hord ?_ ?_ ?_⟩
  · simp only
    omega
  · intro jj hjj
    obtain rfl : ii + 1 = jj := PollPhase.scan.inj hjj
    simp only
    omega
  · intro x hx hxs o ho
    simp only [hreg, htake] at hx
    rw [hobj] at ho
    refine (hL' o x).2 ?_
    rcases List.mem_append.1 hx with hx | hx
    · rw [hsig, update_of_ne (ne_of_mem_of_not_mem hx heii)] at hxs
      exact .inl (h.linked t f hf x (hreg ▸ hx) hxs o ho)
    · obtain rfl := List.mem_singleton.1 hx
      exact .inr ⟨rfl, ho⟩
  · intro u hu g hg x hx hxs o ho
    have hxe : x ≠ e := ne_of_mem_of_not_mem (List.mem_of_mem_take hx) (h.alone hf u hu g hg e hmemf)
    rw [hsig, update_of_ne hxe] at hxs
    rw [hobj] at ho
    exact (hL' o x).2 (.inl (h.linked u g hg x hx hxs o ho))
  · intro o x hx
    rw [hobj, hsig, hpoller]
    rcases (hL' o x).1 hx with hx | ⟨rfl, ho⟩
    · have hxe := ne_of_mem_of_not_mem hx (he o)
      rw [update_of_ne hxe, update_of_ne hxe]
      refine ⟨(h.mem o x hx).1, (h.mem o x hx).2.1, (h.mem_call_or hf hx).imp (fun hm => ⟨hm.1, ?_⟩)
        fun hx' => ⟨rfl, hx'⟩⟩
      simp only [hreg, htake]
      exact List.mem_append_left _ (hreg ▸ hm.2)
    · refine ⟨ho, update_self .., .inl ⟨update_self .., ?_⟩⟩
      simp only [hreg, htake]
      exact List.mem_append_right _ (List.mem_singleton_self x)

/-- The last event that is registered is taken off, whether or not it is on its list. -/
theorem clear (rc : ℤ) {n : Nat} (hreg : f.registered = n + 1) (hne : f.events[n]? = some e) (hunmoved : s.Settled e) :
    ∃ L', PollInv prio ((clearEventRegistration s e).setCall t
      { f with rc := rc, registered := n, phase := .clear }) L' := by
  have hlt := (List.getElem?_eq_some_iff.1 hne).1
  have hmemf : e ∈ f.events := List.mem_of_getElem? hne
  obtain ⟨htake, hen⟩ := take_succ_of_nodup (h.nodup t f hf).1 hne
  obtain ⟨L', hrep, hL', hsub⟩ := h.unlinked (fun hs o ho => h.linked t f hf e (by simp [hreg, htake]) hs o ho) hunmoved
  refine ⟨L', h.put rfl (h.nodup t f hf).1 (h.alone (f := f) hf) ?_ ?_ ?_ hrep ?_ ?_ ?_ ?_⟩
  · simp only
    omega
  · intro hno
    have := h.idle t f hf hno
    simp only
    omega
  · intro jj hjj
    cases hjj
  · intro o
    refine ((h.order o).sublist (hsub o)).imp_of_mem fun {a b} ha hb hab => ?_
    simp only [clearEventRegistration, update_of_ne ((hL' o a).1 ha).2, update_of_ne ((hL' o b).1 hb).2]
    exact hab
  · intro x hx hxs o ho
    have hx' : x ∈ f.events.take f.registered := by
      rw [hreg, htake]
      exact List.mem_append_left _ hx
    exact (hL' o x).2 ⟨h.linked t f hf x hx' hxs o ho, ne_of_mem_of_not_mem hx hen⟩
  · intro u hu g hg x hx hxs o ho
    exact (hL' o x).2 ⟨h.linked u g hg x hx hxs o ho,
      ne_of_mem_of_not_mem (List.mem_of_mem_take hx) (h.alone hf u hu g hg e hmemf)⟩
  · intro o x hx
    obtain ⟨hx, hxe⟩ := (hL' o x).1 hx
    refine ⟨(h.mem o x hx).1, (h.mem o x hx).2.1, ?_⟩
    simp only [clearEventRegistration, update_of_ne hxe]
    refine (h.mem_call_or hf hx).imp (fun ⟨hp, hm⟩ => ⟨hp, ?_⟩) fun hx' => ⟨trivial, hx'⟩
    rw [hreg, htake] at hm
    exact (List.mem_append.1 hm).resolve_right fun hm => hxe (List.mem_singleton.1 hm)

/-- A call that has taken off all its events returns. -/
theorem ret (hreg : f.registered = 0) (rc : ℤ) : PollInv prio (s.ret t rc) L := by
  have hold : ∀ u, ∀ g ∈ (s.ret t rc).calls u, g ∈ s.calls u := by
    intro u g hg
    by_cases hu : u = t
    · subst hu
      simp [PollState.ret] at hg
    · simpa [PollState.ret, hu] using hg
  refine ⟨h.rep, fun u g hg => h.nodup u g (hold u g hg), fun u u' g hg g' hg' =>
    h.apart u u' g (hold u g hg) g' (hold u' g' hg'),
    fun u g hg => h.idle u g (hold u g hg), fun u g hg => h.scan u g (hold u g hg),
    fun u g hg => h.linked u g (hold u g hg), fun o x hx => ?_, h.order⟩
  obtain ⟨ho, hs, u, hu, g, hg, hmem⟩ := h.mem o x hx
  refine ⟨ho, hs, u, hu, g, ?_, hmem⟩
  have hut : u ≠ t := by
    rintro rfl
    obtain rfl : f = g := some_inj.1 (hf.symm.trans hg)
    simp [hreg] at hmem
  simpa [PollState.ret, hut] using hg

theorem clearSection (rc : ℤ) (hunmoved : ∀ x ∈ (f.events.take f.registered).getLast?, s.Settled x) :
    ∃ s' L', clearSection s t { f with rc := rc } = some s' ∧ PollInv prio s' L' := by
  unfold Zephyr.clearSection
  cases hreg : f.registered with
  | zero => exact ⟨_, L, rfl, h.ret hf hreg rc⟩
  | succ n =>
    have hlt : n < f.events.length := by
      have := (h.nodup t f hf).2
      omega
    have hget := List.getElem?_eq_getElem hlt
    have hlast : (f.events.take f.registered).getLast? = some f.events[n] := by
      rw [hreg, (take_succ_of_nodup (h.nodup t f hf).1 hget).1, List.getLast?_concat]
    obtain ⟨L', h'⟩ := h.clear hf rc hreg hget (hunmoved _ hlast)
    simp only [hget, map_some]
    exact ⟨_, L', rfl, h'⟩

/-! ## Signalling -/

end

/-- The first event of a list is taken off. -/
theorem pop {l : List (Fin E)} (hL : L o = e :: l) :
    PollInv prio { s with links := sysDlistRemove s.links (.thread e), signalled := update s.signalled e true }
        (update L o l) ∧
      ∀ o', e ∉ update L o l o' := by
  have hem : e ∈ L o := by simp [hL]
  have hnd := h.rep.nodup o
  rw [hL, List.nodup_cons] at hnd
  have hL' : ∀ o' x, x ∈ update L o l o' ↔ x ∈ L o' ∧ x ≠ e := by
    intro o' x
    by_cases ho : o' = o
    · subst ho
      rw [update_self, hL, List.mem_cons]
      exact ⟨fun hx => ⟨.inr hx, ne_of_mem_of_not_mem hx hnd.1⟩, fun hx => hx.1.resolve_left hx.2⟩
    · rw [update_of_ne ho]
      refine ⟨fun hx => ⟨hx, ?_⟩, And.left⟩
      rintro rfl
      exact ho (some_inj.1 ((h.mem o' x hx).1.symm.trans (h.mem o x hem).1))
  refine ⟨{ h with rep := ?_, linked := fun u g hg x hx hxs o' ho => ?_, mem := fun o' x hx => ?_, order := fun o' => ?_ },
    fun o' hm => ((hL' o' e).1 hm).2 rfl⟩
  · have hrep := priqDumbRemove_spec h.rep hem
    rwa [hL, List.erase_cons_head] at hrep
  · have hxe : x ≠ e := by
      rintro rfl
      simp at hxs
    simp only [update_of_ne hxe] at hxs
    exact (hL' o' x).2 ⟨h.linked u g hg x hx hxs o' ho, hxe⟩
  · obtain ⟨hx, hxe⟩ := (hL' o' x).1 hx
    simp only [update_of_ne hxe]
    exact h.mem o' x hx
  · by_cases ho : o' = o
    · subst ho
      have hord := h.order o'
      rw [hL, Ordered, List.pairwise_cons] at hord
      rw [update_self]
      exact hord.2
    · rw [update_of_ne ho]
      exact h.order o'

/-- **`signal_poll_event` (poll.c:318)** of an event that is off its list. -/
theorem signal (he : ∀ o, e ∉ L o) (b : BitVec 4) : PollInv prio (signalPollEvent s e b) L := by
  unfold signalPollEvent
  split
  · exact h.setReady he b
  · rename_i t ht
    split
    · exact h.setReady he b
    · rename_i f hf
      -- only the scan of the events goes on as before
      have hgo : ∀ ph rc, (∀ ii, ph = .scan ii → f.phase = .scan ii) →
          PollInv prio (s.setCall t { f with isPolling := false, phase := ph, rc := rc }) L := by
        intro ph rc hph
        exact h.setCall hf rfl rfl rfl fun ii hii => ⟨(h.scan t f hf ii (hph ii hii)).1, by simp⟩
      have hsame := hgo f.phase f.rc fun _ => id
      simp only
      split
      · exact hsame
      · exact (hgo .woken _ (by simp)).setReady he b
      · exact hsame.setReady he b

/-- **`_handle_obj_poll_events` (poll.c:351)** signals the first event, if there is one. -/
theorem handle (o : Nat) (b : BitVec 4) : ∃ s' L', handleObjPollEvents s o b = some s' ∧ PollInv prio s' L' ∧
    (L o = [] ∧ s' = s ∨ ∃ e ∈ L o, ∃ m,
      s' = signalPollEvent { s with links := m, signalled := update s.signalled e true } e b) := by
  unfold handleObjPollEvents
  cases hL : L o with
  | nil =>
    have hr : IsRing s.links (.head o) [] := by simpa [qnodes, hL] using h.rep.ring o
    rw [sysDlistGet_nil hr]
    exact ⟨s, L, rfl, h, .inl ⟨rfl, rfl⟩⟩
  | cons e l =>
    have hr : IsRing s.links (.head o) (.thread e :: l.map QNode.thread) := by simpa [qnodes, hL] using h.rep.ring o
    obtain ⟨hpop, he⟩ := h.pop hL
    rw [(sysDlistGet_cons hr).1]
    exact ⟨_, _, rfl, hpop.signal he b, .inr ⟨e, by simp, _, rfl⟩⟩

/-! ## Steps -/

theorem eventInit (he : ∀ t, ∀ f ∈ s.calls t, e ∉ f.events) (obj : Option Nat) :
    PollInv prio (kPollEventInit s e obj) L := by
  have hne : ∀ o, ∀ x ∈ L o, x ≠ e := fun o x hx =>
    ne_of_mem_of_not_mem hx (h.not_mem (fun t f hf hm => he t f hf (List.mem_of_mem_take hm)) o)
  refine { h with linked := fun u g hg x hx hxs o ho => ?_, mem := fun o x hx => ?_, order := fun o => ?_ }
  · have hxe : x ≠ e := ne_of_mem_of_not_mem (List.mem_of_mem_take hx) (he u g hg)
    simp only [kPollEventInit, update_of_ne hxe] at ho
    exact h.linked u g hg x hx hxs o ho
  · simp only [kPollEventInit, update_of_ne (hne o x hx)]
    exact h.mem o x hx
  · refine (h.order o).imp_of_mem fun {a b} ha hb hab => ?_
    simp only [kPollEventInit, update_of_ne (hne o a ha), update_of_ne (hne o b hb)]
    exact hab

theorem call (ht : s.calls t = none) {events : List (Fin E)} (hnd : events.Nodup)
    (hfree : ∀ t', ∀ f ∈ s.calls t', ∀ e ∈ events, e ∉ f.events) (timeout : Timeout) :
    PollInv prio (s.setCall t ⟨events, timeout, true, 0, .scan 0, 0⟩) L := by
  refine h.put rfl hnd (fun u _ => hfree u) (Nat.zero_le _) (fun _ => rfl) ?_ h.rep h.order (by simp)
    (fun u _ => h.linked u)
    fun o x hx => ⟨(h.mem o x hx).1, (h.mem o x hx).2.1, .inr ⟨rfl, hx, fun g hg => ?_⟩⟩
  · rintro ii ⟨⟩
    exact ⟨le_rfl, fun _ _ => rfl⟩
  · cases ht.symm.trans hg

/-- The loop over the events (poll.c:188-201). -/
theorem scanSection (hf : f ∈ s.calls t) {ii : Nat} (hphase : f.phase = .scan ii) (hev : f.events[ii]? = some e) :
    ∃ s' L', scanSection prio kind s t f ii e = some s' ∧ PollInv prio s' L' := by
  have hscan := h.scan t f hf ii hphase
  unfold Zephyr.scanSection
  simp only
  split
  · -- the event was not registered yet
    have he : ∀ o, e ∉ L o := fun o hm => by
      have hm := (h.mem_call hf hm (List.mem_of_getElem? hev)).2
      exact (take_succ_of_nodup (h.nodup t f hf).1 hev).2 (List.take_subset_take_left _ hscan.1 hm)
    refine ⟨_, L, rfl, (h.setReady he _).setCall hf rfl rfl rfl ?_⟩
    rintro jj ⟨⟩
    exact ⟨Nat.le_succ_of_le hscan.1, by simp⟩
  · split
    · rename_i hgo
      obtain ⟨s1, L', hs1, -, -, -, -, h1⟩ := h.register hf hphase hev hgo.1 hgo.2
      simp only [hs1, map_some]
      exact ⟨_, L', rfl, h1⟩
    · rename_i hgo
      refine ⟨_, L, rfl, h.setCall hf rfl rfl rfl ?_⟩
      rintro jj ⟨⟩
      exact ⟨Nat.le_succ_of_le hscan.1, fun hto hpoll => absurd ⟨hto, hpoll⟩ hgo⟩

theorem pendSection (hf : f ∈ s.calls t)
    (hunmoved : f.isPolling = false → ∀ x ∈ (f.events.take f.registered).getLast?, s.Settled x) :
    ∃ s' L', pendSection s t f = some s' ∧ PollInv prio s' L' := by
  unfold Zephyr.pendSection
  split
  · split
    · rename_i hto
      exact ⟨_, L, rfl, h.ret hf (h.idle t f hf hto) eagain⟩
    · exact ⟨_, L, rfl, h.setCall hf rfl rfl rfl (by simp)⟩
  · rename_i hpoll
    exact h.clearSection hf 0 (hunmoved (by simpa using hpoll))

theorem step (hlegal : (PollOp.step t).Legal s) (hunmoved : (PollOp.step t).Unmoved s) :
    ∃ s' L', pollStep prio kind s t = some s' ∧ PollInv prio s' L' := by
  obtain ⟨f, hf, hnp⟩ := hlegal
  have hcall : s.calls t = some f := hf
  have hclears : ∀ x ∈ f.clears, s.Settled x := hunmoved f hf
  simp only [pollStep, hcall, bind_eq_bind, bind_some]
  cases hphase : f.phase with
  | pending b => cases b <;> simp [hphase] at hnp
  | woken | clear =>
    simp only [PollCall.clears, hphase] at hclears
    exact h.clearSection hf f.rc hclears
  | scan ii =>
    simp only
    cases hev : f.events[ii]? with
    | some e => exact h.scanSection hf hphase hev
    | none =>
      have hlen : f.events.length ≤ ii := List.getElem?_eq_none_iff.1 hev
      refine h.pendSection hf fun hpoll => ?_
      simpa only [PollCall.clears, hphase, hlen, hpoll, and_self, if_true] using hclears

theorem exec (op : PollOp T E) (hlegal : op.Legal s) (hunmoved : op.Unmoved s) :
    ∃ s' L', op.exec prio kind s = some s' ∧ PollInv prio s' L' := by
  cases op with
  | eventInit e obj => exact ⟨_, L, rfl, h.eventInit hlegal obj⟩
  | call t events timeout => exact ⟨_, L, rfl, h.call hlegal.1 hlegal.2.2.1 hlegal.2.2.2 timeout⟩
  | step t => exact h.step hlegal hunmoved
  | post o =>
    have h' : PollInv prio { s with cond := update s.cond o true } L := { h with }
    obtain ⟨s', L', hs', h', -⟩ := h'.handle o (kind o).state
    exact ⟨s', L', hs', h'⟩
  | cancel o =>
    obtain ⟨s', L', hs', h', -⟩ := h.handle o stateCancelled
    exact ⟨s', L', hs', h'⟩
  | setCond o met => exact ⟨_, L, rfl, { h with }⟩
  | expire t =>
    obtain ⟨f, hf, -⟩ := hlegal
    have hcall : s.calls t = some f := hf
    exact ⟨s.setCall t { f with phase := .pending true }, L, by simp [PollOp.exec, hcall],
      h.setCall hf rfl rfl rfl (by simp)⟩
  | timeOut t =>
    obtain ⟨f, hf, -⟩ := hlegal
    have hcall : s.calls t = some f := hf
    exact ⟨s.setCall t { f with phase := .woken }, L, by simp [PollOp.exec, hcall], h.setCall hf rfl rfl rfl (by simp)⟩

end

end PollInv

/-! ## Runs -/

/-- What the lists of the objects are to be. -/
structure RegistrationsOk (prio : Option (Fin T) → ℤ) (s : PollState T E) (L : Nat → List (Fin E)) : Prop where
  lists : DumbRep s.links L
  /-- an event that is registered, and that no signaller has taken, is on the list of its object -/
  linked : ∀ t, ∀ f ∈ s.calls t, ∀ e ∈ f.events.take f.registered, s.signalled e = false → ∀ o ∈ s.obj e, e ∈ L o
  registered : ∀ o, ∀ e ∈ L o, s.obj e = some o ∧ ∃ t ∈ s.poller e, ∃ f ∈ s.calls t, e ∈ f.events.take f.registered
  order : ∀ o, (L o).Pairwise fun a b => prio (s.poller a) ≤ prio (s.poller b)

theorem initPoll_inv (links : Links (QNode Nat E)) (cond : Nat → Bool) :
    PollInv prio (initPoll links cond) fun _ => [] where
  rep := by
    refine ⟨fun o => ⟨by simp [qnodes], ?_⟩, ?_⟩
    · simp [qnodes, Chain, initPoll]
    · simp only [qnodes, List.map_nil, List.mem_singleton]
      rintro i j hij _ rfl hc
      exact hij (QNode.head.inj hc)
  nodup := by simp [initPoll]
  apart := by simp [initPoll]
  idle := by simp [initPoll]
  scan := by simp [initPoll]
  linked := by simp [initPoll]
  mem := by simp
  order _ := List.Pairwise.nil

/-- **The registrations stay intact** in every interleaving in which an event that was signalled is cleared while its
neighbours are next to each other. -/
theorem poll_registrations (prio : Option (Fin T) → ℤ) (kind : Nat → PollKind) (links : Links (QNode Nat E))
    (cond : Nat → Bool) (ops : List (PollOp T E))
    (hops : Runs.Along (PollOp.exec prio kind) (fun s op => op.Legal s ∧ op.Unmoved s) (initPoll links cond) ops) :
    ∃ s, Runs.run (PollOp.exec prio kind) (initPoll links cond) ops = some s ∧ ∃ L, RegistrationsOk prio s L := by
  obtain ⟨s, hs, L, h⟩ := Runs.run_total (I := fun s => ∃ L, PollInv prio s L) (fun s op ⟨L, h⟩ hop => by
      obtain ⟨s', L', hs', h'⟩ := h.exec op hop.1 hop.2
      exact ⟨s', hs', L', h'⟩)
    ⟨_, initPoll_inv links cond⟩ hops
  exact ⟨s, hs, L, h.rep, h.linked, fun o e he => ⟨(h.mem o e he).1, (h.mem o e he).2.2⟩, h.order⟩

/-- Threads 0 and 1 have priority 5 and thread 2 has priority 1. -/
def threePrios : Option (Fin 3) → ℤ
  | some 2 => 1
  | _ => 5

def pollLinks : Links (QNode Nat 3) := ⟨id, id⟩

/-- Thread 0 and then thread 1 wait for semaphore 7, which is given. -/
def givenOps : List (PollOp 3 3) :=
  [.eventInit 0 (some 7), .call 0 [0] .forever, .step 0, .step 0, .eventInit 1 (some 7), .call 1 [1] .forever,
    .step 1, .step 1, .post 7]

theorem poll_registrations_given :
    ∃ s, Runs.run (PollOp.exec threePrios fun _ => .sem) (initPoll pollLinks fun _ => false)
      (givenOps ++ [.step 0, .step 0]) = some s ∧ (∃ L, RegistrationsOk threePrios s L) ∧ s.returned = [(0, 0)] := by
  refine Runs.exists_end (P := fun s => s.returned = [(0, 0)]) (by decide +kernel) fun s hs hret => ⟨?_, hret⟩
  exact Runs.at_end (R := fun s => ∃ L, RegistrationsOk threePrios s L)
    (poll_registrations threePrios (fun _ => .sem) pollLinks (fun _ => false) _ (by decide +kernel)) hs

/-- Before thread 0 goes on the semaphore is taken, and thread 2 waits for it. -/
def overtakenOps : List (PollOp 3 3) :=
  givenOps ++ [.setCond 7 false, .eventInit 2 (some 7), .call 2 [2] .forever, .step 2, .step 2, .step 0]

theorem cleared_twice_unlinks :
    Runs.Along (PollOp.exec threePrios fun _ => .sem) (fun s op => op.Legal s)
    (initPoll pollLinks fun _ => false) overtakenOps ∧
    ∃ s, Runs.run (PollOp.exec threePrios fun _ => .sem) (initPoll pollLinks fun _ => false) overtakenOps = some s ∧
      ¬ ∃ L, RegistrationsOk threePrios s L := by
  refine ⟨by decide +kernel, Runs.exists_end (P := fun s => s.links.next (.head 7) = .thread 1 ∧
    s.links.next (.thread 1) = .head 7 ∧ s.obj 2 = some 7 ∧
    s.signalled 2 = false ∧ (s.calls 2).map (fun f => f.events.take f.registered) = some [2]) (by decide +kernel) ?_⟩
  rintro s - ⟨hhead, hnext, hobj, hsig, hcall⟩ ⟨L, hok⟩
  obtain ⟨f, hf, hreg⟩ := map_eq_some_iff.1 hcall
  have hmem : (2 : Fin 3) ∈ L 7 := hok.linked 2 f hf 2 (by rw [hreg]; simp) hsig 7 hobj
  have hr := hok.lists.ring 7
  -- the list is event 1 and nothing else
  cases hL : L 7 with
  | nil =>
    rw [hL] at hmem
    cases hmem
  | cons x l =>
    simp only [qnodes, hL, List.map_cons] at hr
    obtain rfl : x = 1 := by
      have := hr.next_head
      rw [hhead] at this
      simpa [eq_comm] using this
    have hl := hr.next_of_mem (l := [])
    rw [hnext] at hl
    cases l with
    | nil =>
      rw [hL] at hmem
      simp at hmem
    | cons y l => simp at hl

end Zephyr
