import Zephyr.Kernel.PollRuns
import Zephyr.Kernel.QueueWait
/-!
# A queue gives its items to the threads that wait, in both builds

Without `CONFIG_POLL` a thread waits only while the list is empty. With it a thread may be blocked while there
are items, but not when there are more of them than threads under way (`PollQInv.enough`): each thread that is
signalled takes one. An insertion signals one thread, whether it inserts one item or many.
-/
namespace Zephyr

open StableQueue Tally Function List Option

variable {T : Nat}

/-! ## Without `CONFIG_POLL` -/

/-- The thread has an item, or will return with one. -/
def GetPhase.isServed : GetPhase → Bool
  | handed _ | done _ => true
  | _ => false

/-- `k` items are still to be put somewhere. -/
structure PendQInv (s : PendQueue T) (k : Nat) : Prop where
  wait : ∀ t, t ∈ s.waitQ ↔ s.phase t = .waiting
  nodup : s.waitQ.Nodup
  idle : s.waitQ ≠ [] → s.data = []
  items : s.inserted = tally (fun t => (s.phase t).isServed) + s.data.length + k

namespace PendQInv

variable {prio : Fin T → ℤ} {s : PendQueue T} {k : Nat} {t : Fin T}

/-- A thread goes from one phase to another, and the list and the wait queue change with it. -/
theorem move (h : PendQInv s k) {waitQ : List (Fin T)} {data : List Nat} {ph : GetPhase} {n : Nat}
    (hothers : ∀ u, u ≠ t → (u ∈ waitQ ↔ u ∈ s.waitQ))
    (ht : t ∈ waitQ ↔ ph = .waiting) (hnodup : waitQ.Nodup) (hidle : waitQ ≠ [] → data = [])
    (hcount : ph.isServed.toNat + data.length + n = (s.phase t).isServed.toNat + s.data.length + k) :
    PendQInv ({ s with waitQ := waitQ, data := data }.setPhase t ph) n := by
  have htally := tally_update GetPhase.isServed s.phase t ph
  have hitems := h.items
  refine ⟨fun u => ?_, hnodup, hidle, by simp only [PendQueue.setPhase]; omega⟩
  by_cases hu : u = t
  · subst hu
    simpa [PendQueue.setPhase] using ht
  · simpa [PendQueue.setPhase, hu, hothers u hu] using h.wait u

/-- The first thread that waits gets an item. -/
theorem hand (h : PendQInv s (k + 1)) {waitQ : List (Fin T)} (hq : s.waitQ = t :: waitQ) (item : Nat) :
    PendQInv ({ s with waitQ := waitQ }.setPhase t (.handed item)) k := by
  have ht : s.phase t = .waiting := (h.wait t).1 (by simp [hq])
  have hnd := h.nodup
  rw [hq, nodup_cons] at hnd
  refine h.move (fun u hu => by simp [hq, hu]) (by simp [hnd.1]) hnd.2 (fun _ => h.idle (by simp [hq])) ?_
  simp only [ht, GetPhase.isServed, Bool.toNat_true, Bool.toNat_false]
  omega

theorem handOver {items : List Nat} (h : PendQInv s items.length) :
    PendQInv (s.handOver items).1 (s.handOver items).2.length ∧
    ((s.handOver items).2 = [] ∨ (s.handOver items).1.waitQ = []) := by
  induction items generalizing s with
  | nil => exact ⟨h, .inl rfl⟩
  | cons item items ih =>
    unfold PendQueue.handOver
    cases hq : s.waitQ with
    | nil => exact ⟨h, .inr hq⟩
    | cons t waitQ => exact ih (h.hand hq item)

/-- Items go in the list when no thread waits. -/
theorem store (h : PendQInv s k) (hq : s.waitQ = []) {data : List Nat} (hlen : data.length = s.data.length + k) :
    PendQInv { s with data := data } 0 := by
  refine ⟨h.wait, h.nodup, fun hne => absurd hq hne, ?_⟩
  have hitems := h.items
  simp only
  omega

theorem insert (h : PendQInv s 0) (req : InsertReq) : PendQInv (s.insert req) 0 := by
  have hnew : PendQInv { s with inserted := s.inserted + req.items.length } req.items.length := by
    refine ⟨h.wait, h.nodup, h.idle, ?_⟩
    have hitems := h.items
    simp only
    omega
  cases req with
  | append item | prepend item =>
    unfold PendQueue.insert
    simp only
    split
    · rename_i t waitQ hq
      exact hnew.hand hq item
    · rename_i hq
      exact hnew.store hq (by simp [InsertReq.into, InsertReq.items])
  | appendList head others =>
    obtain ⟨hrest, hor⟩ := hnew.handOver
    unfold PendQueue.insert
    simp only [InsertReq.items] at hrest hor ⊢
    split
    · rename_i s1 heq
      rw [heq] at hrest
      exact hrest
    · rename_i s1 item items heq
      rw [heq] at hrest hor
      exact hrest.store (hor.resolve_left (by simp)) (by simp [InsertReq.into])

theorem getSection (h : PendQInv s 0) (ht : s.phase t = .begun) : PendQInv (s.getSection prio t) 0 := by
  unfold PendQueue.getSection
  have hnot : t ∉ s.waitQ := fun hm => by simpa [ht] using (h.wait t).1 hm
  split
  · rename_i item data hdata
    have hq : s.waitQ = [] := by
      by_contra hne
      simpa [hdata] using h.idle hne
    refine h.move (fun _ _ => Iff.rfl) (by simp [hnot]) h.nodup (fun hne => absurd hq hne) ?_
    simp only [ht, hdata, GetPhase.isServed, Bool.toNat_true, Bool.toNat_false, length_cons]
    omega
  · rename_i hdata
    exact h.move (fun u hu => by simp [hu]) (by simp) (nodup_enq h.nodup hnot) (fun _ => hdata)
      (by simp [ht, GetPhase.isServed])

theorem exec (h : PendQInv s 0) (op : WaitOp T) (hlegal : s.Legal op) :
    ∃ s', s.exec prio op = some s' ∧ PendQInv s' 0 := by
  -- a thread that does not wait goes on
  have hgo : ∀ t ph, s.phase t ≠ .waiting → ph ≠ .waiting → ph.isServed = (s.phase t).isServed →
    PendQInv (s.setPhase t ph) 0 := by
    intro t ph ht hph hserved
    exact h.move (fun _ _ => Iff.rfl) ((h.wait t).trans (iff_of_false ht hph)) h.nodup h.idle (by rw [hserved])
  cases op with
  | get t =>
    have ht : s.phase t = .idle := hlegal
    exact ⟨_, rfl, hgo t .begun (by simp [ht]) (by simp) (by simp [ht, GetPhase.isServed])⟩
  | step t =>
    obtain ⟨hidle, hwait, hdone⟩ := hlegal
    cases ht : s.phase t with
    | idle => exact absurd ht hidle
    | begun => exact ⟨s.getSection prio t, by simp only [PendQueue.exec, ht], h.getSection ht⟩
    | waiting => exact absurd ht hwait
    | handed item =>
      exact ⟨s.setPhase t (.done item), by simp only [PendQueue.exec, ht],
        hgo t (.done item) hwait (by simp) (by simp [ht, GetPhase.isServed])⟩
    | done item => simp [ht, GetPhase.isDone] at hdone
  | insert req => exact ⟨_, rfl, h.insert req⟩

theorem delivered (h : PendQInv s 0) (hquiet : s.Quiet) : received s.phase = min (getters s.phase) s.inserted := by
  have hserved : tally (fun t => (s.phase t).isServed) = received s.phase := tally_congr fun t => by
    rcases hquiet t with ht | ht | ht
    · simp [ht, GetPhase.isServed, GetPhase.isDone]
    · simp [ht, GetPhase.isServed, GetPhase.isDone]
    · cases hp : s.phase t <;> simp_all [GetPhase.isServed, GetPhase.isDone]
  have hget : getters s.phase = received s.phase + tally fun t => decide (s.phase t = .waiting) := by
    rw [received, ← tally_or]
    · refine tally_congr fun t => ?_
      rcases hquiet t with ht | ht | ht
      · simp [ht, GetPhase.isIdle, GetPhase.isDone]
      · simp [ht, GetPhase.isIdle, GetPhase.isDone]
      · cases hp : s.phase t <;> simp_all [GetPhase.isIdle, GetPhase.isDone]
    · rintro t ⟨hdone, hwait⟩
      rw [decide_eq_true_eq] at hwait
      simp [hwait, GetPhase.isDone] at hdone
  have hitems := h.items
  by_cases hq : s.waitQ = []
  · have hnone : tally (fun t => decide (s.phase t = .waiting)) = 0 := tally_eq_zero_iff.2 fun t => by
      have := h.wait t
      simpa [hq] using this
    omega
  · rw [h.idle hq, length_nil] at hitems
    omega

end PendQInv

/-! ## With `CONFIG_POLL` -/

/-- The states of a `k_poll(&event, 1, K_FOREVER)`. -/
inductive OneEvent (p : PollState T T) (t : Fin T) : PollCall T → Prop where
  | begun (rc : ℤ) : OneEvent p t ⟨[t], .forever, true, 0, .scan 0, rc⟩
  | listed (rc : ℤ) : p.signalled t = false → OneEvent p t ⟨[t], .forever, true, 1, .scan 1, rc⟩
  | caught (rc : ℤ) : p.signalled t = true → OneEvent p t ⟨[t], .forever, false, 1, .scan 1, rc⟩
  | met (rc : ℤ) : OneEvent p t ⟨[t], .forever, false, 0, .scan 1, rc⟩
  | pending (rc : ℤ) : p.signalled t = false → OneEvent p t ⟨[t], .forever, false, 1, .pending false, rc⟩
  | woken (rc : ℤ) : p.signalled t = true → OneEvent p t ⟨[t], .forever, false, 1, .woken, rc⟩
  | cleared (rc : ℤ) : OneEvent p t ⟨[t], .forever, false, 0, .clear, rc⟩

section oneEvent

variable {prio : Option (Fin T) → ℤ} {p p' : PollState T T} {L : Nat → List (Fin T)} {t : Fin T} {f : PollCall T}

theorem OneEvent.events (h : OneEvent p t f) : f.events = [t] := by cases h <;> rfl

theorem OneEvent.congr (h : OneEvent p t f) (hsig : p'.signalled t = p.signalled t) : OneEvent p' t f := by
  cases h with
  | begun rc => exact .begun rc
  | listed rc hs => exact .listed rc (hsig.trans hs)
  | caught rc hs => exact .caught rc (hsig.trans hs)
  | met rc => exact .met rc
  | pending rc hs => exact .pending rc (hsig.trans hs)
  | woken rc hs => exact .woken rc (hsig.trans hs)
  | cleared rc => exact .cleared rc

/-- What the next section does to the call of `t`: the event may be registered, when nothing is there. -/
structure Stepped (p p' : PollState T T) (t : Fin T) (f : PollCall T) : Prop where
  obj : p'.obj = p.obj
  cond : p'.cond = p.cond
  calls : ∀ u, u ≠ t → p'.calls u = p.calls u
  signalled : ∀ u, u ≠ t → p'.signalled u = p.signalled u
  one : ∀ f' ∈ p'.calls t, OneEvent p' t f'
  stays : p.cond 0 = false ∨ ((∃ f' ∈ p'.calls t, f'.registered = 1 ∧ p'.signalled t = false) ↔
    f.registered = 1 ∧ p.signalled t = false)

theorem Stepped.setCall {q : PollState T T} {f' : PollCall T} (hobj : q.obj = p.obj) (hcond : q.cond = p.cond)
    (hcalls : q.calls = p.calls) (hsig : ∀ u, u ≠ t → q.signalled u = p.signalled u) (hone : OneEvent q t f')
    (hstays : p.cond 0 = false ∨ (f'.registered = 1 ∧ q.signalled t = false ↔ f.registered = 1 ∧
      p.signalled t = false)) :
    Stepped p (q.setCall t f') t f where
  obj := hobj
  cond := hcond
  calls u hu := by simp [PollState.setCall, hu, hcalls]
  signalled := hsig
  one g hg := by
    obtain rfl : f' = g := by simpa [PollState.setCall] using hg
    exact hone.congr rfl
  stays := hstays.imp_right fun hiff => by simpa [PollState.setCall] using hiff

theorem Stepped.ret (hreg : f.registered = 0) (rc : ℤ) : Stepped p (p.ret t rc) t f where
  obj := rfl
  cond := rfl
  calls u hu := by simp [PollState.ret, hu]
  signalled _ _ := rfl
  one g hg := by simp [PollState.ret] at hg
  stays := .inr (by simp [PollState.ret, hreg])

theorem pollStep_stepped (h : PollInv prio p L) (hf : f ∈ p.calls t) (hone : OneEvent p t f) (hobj : p.obj t = some 0)
    (hnp : f.phase ≠ .pending false) (hunmoved : (PollOp.step t).Unmoved p) :
    ∃ p' L', pollStep prio (fun _ => .queue) p t = some p' ∧ PollInv prio p' L' ∧ Stepped p p' t f := by
  have hcall : p.calls t = some f := hf
  have hne : f.phase ≠ .pending true := fun e => by cases hone <;> cases e
  obtain ⟨p', L', hp', h'⟩ : ∃ p' L', pollStep prio (fun _ => .queue) p t = some p' ∧ PollInv prio p' L' :=
    h.step ⟨f, hf, hnp, hne⟩ hunmoved
  refine ⟨p', L', hp', h', ?_⟩
  simp only [pollStep, hcall, bind_eq_bind, bind_some] at hp'
  cases hone with
  | begun rc =>
    simp only [List.getElem?_cons_zero, scanSection, isConditionMet, hobj] at hp'
    cases hc : p.cond 0 with
    | true =>
      rw [hc] at hp'
      obtain rfl := some_inj.1 hp'
      exact .setCall rfl rfl rfl (fun _ _ => rfl) (.met rc) (.inr (by simp))
    | false =>
      rw [hc] at hp'
      obtain ⟨q, hq, rfl⟩ := map_eq_some_iff.1 hp'
      obtain ⟨m, -, rfl⟩ := map_eq_some_iff.1 hq
      exact .setCall rfl rfl rfl (fun u hu => update_of_ne hu _ _) (.listed rc (update_self ..)) (.inl hc)
  | listed rc hs =>
    obtain rfl := some_inj.1 hp'
    exact .setCall rfl rfl rfl (fun _ _ => rfl) (.pending _ hs) (.inr Iff.rfl)
  | caught rc hs =>
    obtain rfl := some_inj.1 hp'
    exact .setCall rfl rfl rfl (fun _ _ => rfl) (.cleared _) (.inr (by simp [hs]))
  | met rc =>
    obtain rfl := some_inj.1 hp'
    exact .ret rfl _
  | pending rc hs => exact absurd rfl hnp
  | woken rc hs =>
    obtain rfl := some_inj.1 hp'
    exact .setCall rfl rfl rfl (fun _ _ => rfl) (.cleared _) (.inr (by simp [hs]))
  | cleared rc =>
    obtain rfl := some_inj.1 hp'
    exact .ret rfl _

end oneEvent

structure PollQInv (prio : Option (Fin T) → ℤ) (s : PollQueue T) (L : Nat → List (Fin T)) : Prop where
  poll : PollInv prio s.poll L
  one : ∀ t, ∀ f ∈ s.poll.calls t, s.phase t = .waiting ∧ OneEvent s.poll t f
  obj : ∀ t, s.phase t = .waiting → s.poll.obj t = some 0
  phases : ∀ t item, s.phase t ≠ .handed item
  cond : s.poll.cond 0 = !s.data.isEmpty
  items : s.inserted = received s.phase + s.data.length
  enough : (∃ t, s.blocked t = true) → s.data.length ≤ tally s.active

namespace PollQInv

variable {prio : Option (Fin T) → ℤ} {s : PollQueue T} {L : Nat → List (Fin T)} {t : Fin T}

theorem blocked_iff : s.blocked t = true ↔ ∃ f ∈ s.poll.calls t, f.registered = 1 ∧ s.poll.signalled t = false := by
  unfold PollQueue.blocked
  cases s.poll.calls t <;> simp

theorem blocked_congr (s s' : PollQueue T) (hcalls : s'.poll.calls t = s.poll.calls t)
    (hsig : s'.poll.signalled t = s.poll.signalled t) :
    s'.blocked t = s.blocked t := by
  rw [Bool.eq_iff_iff, blocked_iff, blocked_iff, hcalls, hsig]

/-- The list of the queue has the threads that are blocked. -/
theorem mem_iff (h : PollQInv prio s L) : t ∈ L 0 ↔ s.blocked t = true := by
  rw [blocked_iff]
  constructor
  · intro ht
    obtain ⟨-, hsig, u, -, f, hf, hmem⟩ := h.poll.mem 0 t ht
    obtain ⟨-, hone⟩ := h.one u f hf
    obtain rfl : t = u := by simpa [hone.events] using mem_of_mem_take hmem
    refine ⟨f, hf, ?_, hsig⟩
    cases hone <;> simp at hmem <;> rfl
  · rintro ⟨f, hf, hreg, hsig⟩
    obtain ⟨hw, hone⟩ := h.one t f hf
    exact h.poll.linked t f hf t (by simp [hone.events, hreg]) hsig 0 (h.obj t hw)

theorem not_blocked (h : PollQInv prio s L) (ht : s.phase t ≠ .waiting) :
    s.poll.calls t = none ∧ s.blocked t = false := by
  have hnone : s.poll.calls t = none := by
    by_contra hne
    obtain ⟨f, hf⟩ := ne_none_iff_exists'.1 hne
    exact ht (h.one t f hf).1
  exact ⟨hnone, by simp [PollQueue.blocked, hnone]⟩

/-- Thread `t` has moved: the threads under way. -/
theorem active_move (s s' : PollQueue T) (hphase : ∀ u, u ≠ t → s'.phase u = s.phase u)
    (hblocked : ∀ u, u ≠ t → s'.blocked u = s.blocked u) :
    tally s'.active + (s.active t).toNat = tally s.active + (s'.active t).toNat :=
  tally_move s.active s'.active t fun u hu => by rw [PollQueue.active, PollQueue.active, hphase u hu, hblocked u hu]

section

variable (h : PollQInv prio s L)

include h

/-- A thread that is not in `k_poll` goes to another phase. -/
theorem move (hcalls : s.poll.calls t = none) {p : PollState T T} {data : List Nat} {ph : GetPhase}
    (hpoll : PollInv prio p L)
    (hsame : p.calls = s.poll.calls ∧ p.signalled = s.poll.signalled) (hobj : ∀ u, u ≠ t → p.obj u = s.poll.obj u)
    (hself : ph = .waiting → p.obj t = some 0) (hph : ∀ item, ph ≠ .handed item) (hcond : p.cond 0 = !data.isEmpty)
    (hcount : ph.isDone.toNat + data.length = (s.phase t).isDone.toNat + s.data.length)
    (hrest : data = [] ∨ data.length + (s.active t).toNat ≤ s.data.length) : PollQInv prio
    ({ s with poll := p, data := data }.setPhase t ph) L := by
  obtain ⟨hpc, hps⟩ := hsame
  have hself' : ({ s with poll := p, data := data }.setPhase t ph).phase t = ph := update_self ..
  have hphase : ∀ u, u ≠ t → ({ s with poll := p, data := data }.setPhase t ph).phase u = s.phase u :=
    fun u hu => update_of_ne hu _ _
  have hblocked : ∀ u, ({ s with poll := p, data := data }.setPhase t ph).blocked u = s.blocked u :=
    fun u => blocked_congr _ _ (congrFun hpc u) (congrFun hps u)
  have hmove := active_move s _ hphase fun u _ => hblocked u
  have hrec := tally_update GetPhase.isDone s.phase t ph
  have hitems := h.items
  refine ⟨hpoll, fun u f hf => ?_, fun u hu => ?_, fun u x => ?_, hcond, ?_, fun hex => ?_⟩
  · have hf' : f ∈ s.poll.calls u := hpc ▸ hf
    have hut : u ≠ t := by
      rintro rfl
      cases hcalls.symm.trans hf'
    obtain ⟨hw, hone⟩ := h.one u f hf'
    exact ⟨(hphase u hut).trans hw, hone.congr (congrFun hps u)⟩
  · by_cases hut : u = t
    · subst hut
      exact hself (hself'.symm.trans hu)
    · exact (hobj u hut).trans (h.obj u ((hphase u hut).symm.trans hu))
  · by_cases hut : u = t
    · subst hut
      rw [hself']
      exact hph x
    · rw [hphase u hut]
      exact h.phases u x
  · simp only [received, PollQueue.setPhase] at hitems ⊢
    omega
  · have hen := h.enough (by simpa only [hblocked] using hex)
    rcases hrest with rfl | hle
    · exact Nat.zero_le _
    · simp only [PollQueue.setPhase] at hmove ⊢
      omega

/-- A thread takes the first item. -/
theorem take (ht : s.phase t = .begun ∨ s.phase t = .waiting) (hcalls : s.poll.calls t = none) {item : Nat}
    {data : List Nat} (hdata : s.data = item :: data) : PollQInv prio (s.take t item data) L := by
  have hnd : (s.phase t).isDone = false := by rcases ht with ht | ht <;> simp [ht, GetPhase.isDone]
  refine h.move hcalls { h.poll with } ⟨rfl, rfl⟩ (fun _ _ => rfl) nofun (fun _ => nofun) (by simp) ?_ (.inr ?_)
  · rw [hnd, hdata, length_cons]
    change 1 + data.length = 0 + _
    omega
  · rw [hdata, length_cons]
    exact Nat.add_le_add_left (Bool.toNat_le _) _

/-- The event is initialized. -/
theorem startPoll (ht : s.phase t = .begun) (hdata : s.data = []) :
    PollQInv prio ({ s with poll := kPollEventInit s.poll t (some 0) }.setPhase t .waiting) L := by
  obtain ⟨hcalls, -⟩ := h.not_blocked (t := t) (by simp [ht])
  have hfree : ∀ u, ∀ f ∈ s.poll.calls u, t ∉ f.events := fun u f hf hm => by
    rw [(h.one u f hf).2.events, mem_singleton] at hm
    subst hm
    cases hcalls.symm.trans hf
  exact h.move hcalls (h.poll.eventInit hfree (some 0)) ⟨rfl, rfl⟩ (fun u hu => update_of_ne hu _ _)
    (fun _ => update_self ..) (fun _ => nofun) h.cond
    (by simp [ht, GetPhase.isDone]) (.inl hdata)

/-- `k_poll` is called, as there is nothing in the list. -/
theorem callPoll (ht : s.phase t = .waiting) (hcalls : s.poll.calls t = none) (hdata : s.data = []) :
    PollQInv prio (s.callPoll t) L := by
  have hfree : ∀ u, ∀ f ∈ s.poll.calls u, ∀ e ∈ [t], e ∉ f.events := fun u f hf e he hm => by
    rw [(h.one u f hf).2.events, mem_singleton] at hm
    rw [mem_singleton] at he
    subst he hm
    cases hcalls.symm.trans hf
  have hpoll : PollInv prio { s.poll with state := update s.poll.state t 0 } L := { h.poll with }
  refine ⟨hpoll.call hcalls (nodup_singleton t) hfree .forever, fun u f hf => ?_, h.obj, h.phases, h.cond,
    h.items, fun _ => by
    simp [PollQueue.callPoll, hdata]⟩
  rcases mem_setCall.1 hf with ⟨rfl, rfl⟩ | ⟨-, hf⟩
  · exact ⟨ht, .begun 0⟩
  · obtain ⟨hw, hone⟩ := h.one u f hf
    exact ⟨hw, hone.congr rfl⟩

theorem pollStep {f : PollCall T} (hf : f ∈ s.poll.calls t) (hnp : ¬ s.Pending t)
    (hunmoved : (PollOp.step t).Unmoved s.poll) :
    ∃ p' L', pollStep prio (fun _ => .queue) s.poll t = some p' ∧ PollQInv prio { s with poll := p' } L' := by
  obtain ⟨hw, hone⟩ := h.one t f hf
  obtain ⟨p', L', hp', h', hst⟩ := pollStep_stepped h.poll hf hone (h.obj t hw) (fun e => hnp ⟨f, hf, e⟩) hunmoved
  refine ⟨p', L', hp', h', fun u g hg => ?_, fun u hu => ?_, h.phases, ?_, h.items, fun hex => ?_⟩
  · by_cases hut : u = t
    · subst hut
      exact ⟨hw, hst.one g hg⟩
    · rw [hst.calls u hut] at hg
      obtain ⟨hw', hone'⟩ := h.one u g hg
      exact ⟨hw', hone'.congr (hst.signalled u hut)⟩
  · simp only [hst.obj]
    exact h.obj u hu
  · simp only [hst.cond]
    exact h.cond
  · rcases hst.stays with hc | hiff
    · -- there is nothing in the list
      have hempty : s.data = [] := by simpa [h.cond] using hc
      simp [hempty]
    · have hsame : ∀ u, PollQueue.blocked { s with poll := p' } u = s.blocked u := fun u => by
        by_cases hut : u = t
        · subst hut
          rw [Bool.eq_iff_iff, blocked_iff, blocked_iff]
          refine hiff.trans ⟨fun hreg => ⟨f, hf, hreg⟩, fun ⟨g, hg, hreg⟩ => ?_⟩
          obtain rfl : f = g := some_inj.1 (hf.symm.trans hg)
          exact hreg
        · exact blocked_congr _ _ (hst.calls u hut) (hst.signalled u hut)
      have hactive : tally (PollQueue.active { s with poll := p' }) = tally s.active := tally_congr fun u => by
        rw [PollQueue.active, PollQueue.active, hsame u]
      rw [hactive]
      exact h.enough (by simpa only [hsame] using hex)

/-- A thread that is blocked is signalled: `k_poll` will return. -/
theorem signal_blocked (ht : t ∈ L 0) (m : Ring.Links (QNode Nat T)) (cond : Nat → Bool) (b : BitVec 4) :
    ∃ p', signalPollEvent { s.poll with cond := cond, links := m, signalled := update s.poll.signalled t true } t b = p' ∧
      p'.obj = s.poll.obj ∧ p'.cond = cond ∧ (∀ u, u ≠ t → p'.calls u = s.poll.calls u) ∧
      p'.signalled = update s.poll.signalled t true ∧
      ∃ f ∈ p'.calls t, OneEvent p' t f := by
  obtain ⟨-, hsig, u, hu, f, hf, hmem⟩ := h.poll.mem 0 t ht
  obtain ⟨-, hone⟩ := h.one u f hf
  obtain rfl : t = u := by simpa [hone.events] using mem_of_mem_take hmem
  have hpoller : s.poll.poller t = some t := hu
  have hcall : s.poll.calls t = some f := hf
  have hcalls : ∀ f' u, u ≠ t → update s.poll.calls t f' u = s.poll.calls u := fun f' u hu => update_of_ne hu _ _
  refine ⟨_, rfl, ?_⟩
  simp only [signalPollEvent, hpoller, hcall]
  cases hone with
  | listed rc hs => exact ⟨rfl, rfl, hcalls _, rfl, _, update_self .., .caught rc (update_self ..)⟩
  | pending rc hs => exact ⟨rfl, rfl, hcalls _, rfl, _, update_self .., .woken _ (update_self ..)⟩
  | caught rc hs | woken rc hs => cases hsig.symm.trans hs
  | begun rc | met rc | cleared rc => simp at hmem

theorem insert (req : InsertReq) (henough : s.Enough (.insert req)) :
    ∃ s' L', s.insert req = some s' ∧ PollQInv prio s' L' := by
  have hlen : (req.into s.data).length = s.data.length + req.items.length := by
    cases req <;> simp [InsertReq.into, InsertReq.items]
  have hne : (req.into s.data).isEmpty = false := by cases req <;> simp [InsertReq.into]
  have hpoll : PollInv prio { s.poll with cond := update s.poll.cond 0 true } L := { h.poll with }
  have hitems := h.items
  obtain ⟨p', L', hp', h', hor⟩ := hpoll.handle 0 PollKind.queue.state
  refine ⟨_, L', by simp only [PollQueue.insert, hp', map_some]; rfl, ?_⟩
  rcases hor with ⟨hL, rfl⟩ | ⟨t, ht, m, rfl⟩
  · -- nobody is blocked
    refine ⟨h', fun u f hf => ?_, h.obj, h.phases, by simp [hne], by simp only; omega, fun ⟨u, hu⟩ => ?_⟩
    · obtain ⟨hw, hone⟩ := h.one u f hf
      exact ⟨hw, hone.congr rfl⟩
    · have hu' := h.mem_iff.2 ((blocked_congr s _ rfl rfl).symm.trans hu)
      rw [hL] at hu'
      cases hu'
  · obtain ⟨p', hp', hobj, hcond, hcalls, hsig, f, hf, hone⟩ :=
      h.signal_blocked ht m (update s.poll.cond 0 true) PollKind.queue.state
    simp only [hp'] at h' ⊢
    set s' : PollQueue T :=
      { s with poll := p', data := req.into s.data, inserted := s.inserted + req.items.length } with hs'
    have hbt := h.mem_iff.1 ht
    have hw : s.phase t = .waiting := by
      obtain ⟨g, hg, -⟩ := blocked_iff.1 hbt
      exact (h.one t g hg).1
    have hbt' : s'.blocked t = false := by
      rw [Bool.eq_false_iff, ne_eq, blocked_iff]
      rintro ⟨-, -, -, hfalse⟩
      simp [hs', hsig] at hfalse
    have hblocked : ∀ u, u ≠ t → s'.blocked u = s.blocked u := fun u hu =>
      blocked_congr s s' (hcalls u hu) (by simp only [hs', hsig, update_of_ne hu])
    have hmoveB := tally_move s.blocked s'.blocked t hblocked
    have hmoveA := active_move s s' (fun _ _ => rfl) hblocked
    have hat : s.active t = false := by simp [PollQueue.active, hbt]
    have hat' : s'.active t = true := by
      have hw' : s'.phase t = .waiting := hw
      simp [PollQueue.active, hbt', hw', GetPhase.isIdle, GetPhase.isDone]
    rw [hbt, hbt'] at hmoveB
    change _ + 1 = _ + 0 at hmoveB
    rw [hat, hat'] at hmoveA
    change _ + 0 = _ + 1 at hmoveA
    refine ⟨h', fun u g hg => ?_, fun u hu => ?_, h.phases, ?_, ?_, fun ⟨u, hu⟩ => ?_⟩
    · by_cases hut : u = t
      · subst hut
        obtain rfl : f = g := some_inj.1 (hf.symm.trans hg)
        exact ⟨hw, hone⟩
      · simp only [hs', hcalls u hut] at hg
        obtain ⟨hw', hone'⟩ := h.one u g hg
        exact ⟨hw', hone'.congr (by simp only [hs', hsig, update_of_ne hut])⟩
    · simp only [hs', hobj]
      exact h.obj u hu
    · simp [hs', hcond, hne]
    · simp only [hs']
      omega
    · have hpos : tally s'.blocked ≠ 0 := fun e => by
        rw [tally_eq_zero_iff.1 e u] at hu
        cases hu
      change (req.into s.data).length ≤ tally s'.active
      rcases henough with hle | hle <;> omega

theorem exec (op : WaitOp T) (hlegal : s.Legal op) (henough : s.Enough op) :
    ∃ s' L', s.exec prio op = some s' ∧ PollQInv prio s' L' := by
  cases op with
  | get t =>
    have ht : s.phase t = .idle := hlegal
    obtain ⟨hcalls, -⟩ := h.not_blocked (t := t) (by simp [ht])
    exact ⟨s.setPhase t .begun, L, rfl, h.move hcalls h.poll ⟨rfl, rfl⟩ (fun _ _ => rfl) nofun
      (fun _ => nofun) h.cond (by simp [ht, GetPhase.isDone])
      (.inr (by simp [PollQueue.active, ht, GetPhase.isIdle]))⟩
  | step t =>
    obtain ⟨hidle, hdone, hnp⟩ := hlegal
    cases ht : s.phase t with
    | idle => exact absurd ht hidle
    | begun =>
      obtain ⟨hcalls, -⟩ := h.not_blocked (t := t) (by simp [ht])
      refine ⟨s.getSection t, L, by simp only [PollQueue.exec, ht], ?_⟩
      unfold PollQueue.getSection
      split
      · rename_i item data hdata
        exact h.take (.inl ht) hcalls hdata
      · rename_i hdata
        exact (h.startPoll ht hdata).callPoll (update_self ..) hcalls hdata
    | waiting =>
      simp only [PollQueue.exec, ht, PollQueue.pollSection]
      cases hcalls : s.poll.calls t with
      | some f =>
        obtain ⟨p', L', hp', h'⟩ := h.pollStep hcalls hnp henough
        simp only [hp', map_some]
        exact ⟨_, L', rfl, h'⟩
      | none =>
        simp only
        split
        · rename_i item data hdata
          exact ⟨_, L, rfl, h.take (.inr ht) hcalls hdata⟩
        · rename_i hdata
          exact ⟨_, L, rfl, h.callPoll ht hcalls hdata⟩
    | handed item => exact absurd ht (h.phases t item)
    | done item => simp [ht, GetPhase.isDone] at hdone
  | insert req => exact h.insert req henough

theorem delivered (hquiet : s.Quiet) : received s.phase = min (getters s.phase) s.inserted := by
  have hpending : ∀ t, s.Pending t → s.phase t = .waiting ∧ s.blocked t = true := by
    rintro t ⟨f, hf, hph⟩
    obtain ⟨hw, hone⟩ := h.one t f hf
    refine ⟨hw, blocked_iff.2 ⟨f, hf, ?_⟩⟩
    cases hone with
    | pending rc hs => exact ⟨rfl, hs⟩
    | _ => cases hph
  have hnw : ∀ t, s.phase t ≠ .waiting → s.blocked t = false := fun t ht => (h.not_blocked ht).2
  have hget : getters s.phase = received s.phase + tally s.blocked := by
    rw [received, ← tally_or]
    · refine tally_congr fun t => ?_
      rcases hquiet t with ht | ht | ht
      · simp [ht, hnw t (by simp [ht]), GetPhase.isIdle, GetPhase.isDone]
      · obtain ⟨hw, hb⟩ := hpending t ht
        simp [hw, hb, GetPhase.isIdle]
      · cases hp : s.phase t <;> simp_all [GetPhase.isIdle, GetPhase.isDone]
    · rintro t ⟨hdone, hb⟩
      obtain ⟨f, hf, -⟩ := blocked_iff.1 hb
      simp [(h.one t f hf).1, GetPhase.isDone] at hdone
  have hactive : tally s.active = 0 := tally_eq_zero_iff.2 fun t => by
    rcases hquiet t with ht | ht | ht
    · simp [PollQueue.active, ht, GetPhase.isIdle]
    · simp [PollQueue.active, (hpending t ht).2]
    · simp [PollQueue.active, ht]
  have hitems := h.items
  by_cases hex : ∃ t, s.blocked t = true
  · have hen := h.enough hex
    omega
  · have hnone : tally s.blocked = 0 := tally_eq_zero_iff.2 fun t => by simpa using fun hb => hex ⟨t, hb⟩
    omega

end

end PollQInv

/-! ## Runs -/

theorem pendQueue_init (T : Nat) : PendQInv (PendQueue.init T) 0 where
  wait := by simp [PendQueue.init]
  nodup := nodup_nil
  idle _ := rfl
  items := by simp [PendQueue.init, tally, GetPhase.isServed]

theorem pollQueue_init (prio : Option (Fin T) → ℤ) (links : Ring.Links (QNode Nat T)) :
    PollQInv prio (PollQueue.init T links) fun _ => [] where
  poll := initPoll_inv links _
  one := by simp [PollQueue.init, initPoll]
  obj := by simp [PollQueue.init]
  phases := by simp [PollQueue.init]
  cond := rfl
  items := by simp [PollQueue.init, received, tally, GetPhase.isDone]
  enough := by simp [PollQueue.init, PollQueue.blocked, initPoll]

/-- **Both builds deliver `min (waiters, items)`**: without `CONFIG_POLL` always, and with it when insertions
signal enough threads and no event is cleared out of place. -/
theorem queue_delivers (prio : Option (Fin T) → ℤ) (links : Ring.Links (QNode Nat T)) (ops : List (WaitOp T)) :
    (Runs.Along (PendQueue.exec fun t => prio (some t)) PendQueue.Legal (PendQueue.init T) ops →
      ∃ s, Runs.run (PendQueue.exec fun t => prio (some t)) (PendQueue.init T) ops = some s ∧
        (s.Quiet → received s.phase = min (getters s.phase) s.inserted)) ∧
    (Runs.Along (PollQueue.exec prio) (fun s op => s.Legal op ∧ s.Enough op) (PollQueue.init T links) ops →
      ∃ s, Runs.run (PollQueue.exec prio) (PollQueue.init T links) ops = some s ∧
        (s.Quiet → received s.phase = min (getters s.phase) s.inserted)) := by
  constructor
  · intro hops
    obtain ⟨s, hs, h⟩ := Runs.run_total (I := fun s => PendQInv s 0) (fun s op h hop => h.exec op hop)
      (pendQueue_init T) hops
    exact ⟨s, hs, h.delivered⟩
  · intro hops
    obtain ⟨s, hs, L, h⟩ := Runs.run_total (I := fun s => ∃ L, PollQInv prio s L) (fun s op ⟨L, h⟩ hop => by
        obtain ⟨s', L', hs', h'⟩ := h.exec op hop.1 hop.2
        exact ⟨s', hs', L', h'⟩)
      ⟨_, pollQueue_init prio links⟩ hops
    exact ⟨s, hs, h.delivered⟩

/-- Two threads wait in `k_queue_get`, with `CONFIG_POLL`. -/
def twoPoll : List (WaitOp 2) := [.get 0, .step 0, .step 0, .step 0, .get 1, .step 1, .step 1, .step 1]

/-- Two threads wait for two appends. -/
theorem queue_delivers_twoAppends :
    (∃ s, Runs.run (PendQueue.exec fun _ => 0) (PendQueue.init 2)
        [.get 0, .step 0, .get 1, .step 1, .insert (.append 10), .insert (.append 11), .step 0, .step 1] = some s ∧
      s.Quiet ∧ received s.phase = min (getters s.phase) s.inserted) ∧
    ∃ s, Runs.run (PollQueue.exec fun _ => 0) (PollQueue.init 2 ⟨id, id⟩)
        (twoPoll ++ [.insert (.append 10), .step 0, .step 0, .step 0, .insert (.append 11), .step 1, .step 1,
          .step 1]) = some s ∧
      s.Quiet ∧ received s.phase = min (getters s.phase) s.inserted := by
  constructor
  · refine Runs.exists_end (P := fun s => s.Quiet) (by decide +kernel) fun s hs hq => ⟨hq, ?_⟩
    exact Runs.at_end ((queue_delivers (fun _ => 0) ⟨id, id⟩ _).1 (by decide +kernel)) hs hq
  · refine Runs.exists_end (P := fun s => s.Quiet) (by decide +kernel) fun s hs hq => ⟨hq, ?_⟩
    exact Runs.at_end ((queue_delivers (fun _ => 0) ⟨id, id⟩ _).2 (by decide +kernel)) hs hq

/-- Two threads wait, and a list of two items is appended: one thread is woken and takes one of them. -/
theorem list_wakes_one :
    Runs.Along (PollQueue.exec fun _ => 0) PollQueue.Legal (PollQueue.init 2 ⟨id, id⟩)
      (twoPoll ++ [.insert (.appendList 10 [11]), .step 0, .step 0, .step 0]) ∧
    ∃ s, Runs.run (PollQueue.exec fun _ => 0) (PollQueue.init 2 ⟨id, id⟩)
    (twoPoll ++ [.insert (.appendList 10 [11]), .step 0, .step 0, .step 0]) = some s ∧
      s.Quiet ∧ received s.phase = 1 ∧ min (getters s.phase) s.inserted = 2 ∧ s.data = [11] := by
  refine ⟨by decide +kernel, Runs.exists_end (P := fun s => s.Quiet ∧ received s.phase = 1 ∧
    min (getters s.phase) s.inserted = 2 ∧ s.data = [11])
    (by decide +kernel) fun s _ hs => hs⟩

end Zephyr
