import Zephyr.Kernel.MailboxLedger
import Zephyr.Kernel.SchedVeil
/-!
# Mailboxes under every run

The senders that have been matched and not been woken are the threads that the scheduler does not know the place of
(`Veiled`). `MboxInv` ties the ledger of the mailboxes to the scheduler: who is in `tx_msg_queue` offers a message, who
is in `rx_msg_queue` asks for one, and no matched sender runs. Each step touches a few threads and descriptors
(`Frame`), and for the others nothing changes.
-/
namespace Zephyr

open Ring Sched MboxState Function Option

variable {N : Nat} {W σ : Type} [DecidableEq W] {Q : Queues N W σ} {H : Q.Lawful}
    {each : σ → W → Option (List (Fin N))} {cfg : Config N}
  {mboxes : List (KMbox W)} {s s1 s' : MboxState N W σ} {c g r y : Fin N} {d : Nat}

/-- The sender has been matched and not been woken. -/
def MboxState.isHeld (s : MboxState N W σ) (h : Fin N) : Bool := (s.held h).isSome

/-- The thread waits in the queue, and is none of those senders. -/
def MboxState.Waits (s : MboxState N W σ) (w : W) (y : Fin N) : Prop := s.sched.Waits s.isHeld w y

structure MboxInv (H : Q.Lawful) (cfg : Config N) (mboxes : List (KMbox W)) (s : MboxState N W σ) : Prop where
  veiled : Veiled H cfg s.sched s.isHeld
  idle : s.place cfg.idle = .outside
  offers : ∀ m ∈ mboxes, ∀ y, s.Waits m.txMsgQueue y → s.Offering y
  asks : ∀ m ∈ mboxes, ∀ y, s.Waits m.rxMsgQueue y → s.Asking y
  ledger : MboxLedger s

section

omit [DecidableEq W]

theorem isHeld_eq_false : s.isHeld y = false ↔ s.held y = none := by simp [isHeld]

theorem isHeld_eq_true : s.isHeld y = true ↔ s.held y ≠ none := by simp [isHeld, isSome_iff_ne_none]

theorem isHeld_update {held : Fin N → Option (Holder N)} (holder : Option (Holder N))
    (hheld : s'.held = update held g holder) (hs : s.held = held) : s'.isHeld = update s.isHeld g holder.isSome := by
  funext y
  by_cases hy : y = g
  · simp [isHeld, hheld, hy]
  · simp [isHeld, hheld, hs, hy]

theorem not_waits (hp : (s.sched.base c).pending = false) {w : W} : ¬ s.Waits w c := fun hw => by
  simpa [hp] using hw.2.1

end

/-! ## What a step touches -/

/-- At most the threads of `T` and the descriptors of `D` are touched. -/
structure Frame (T : Fin N → Prop) (D : Nat → Prop) (s s' : MboxState N W σ) : Prop where
  place : ∀ y, ¬ T y → s'.place y = s.place y
  retval : ∀ y, ¬ T y → s'.retval y = s.retval y
  held : ∀ y, ¬ T y → s'.held y = s.held y
  txMsg : ∀ y, ¬ T y → s'.txMsg y = s.txMsg y
  sent : ∀ y, ¬ T y → s'.sent y = s.sent y
  puts : ∀ y, ¬ T y → s'.puts y = s.puts y
  rxDesc : ∀ y, ¬ T y → s'.rxDesc y = s.rxDesc y
  met : ∀ x ∈ s'.met, ¬ T x.sender → x ∈ s.met
  rxMsg : ∀ d, ¬ D d → s'.rxMsg d = s.rxMsg d
  asked : ∀ d, ¬ D d → s'.asked d = s.asked d
  kept : ∀ d, ¬ D d → s'.kept d = s.kept d
  discarded : ∀ d, ¬ D d → s'.discarded d = s.discarded d

namespace Frame

variable {T : Fin N → Prop} {D : Nat → Prop}

omit [DecidableEq W]

theorem refl (T : Fin N → Prop) (D : Nat → Prop) (s : MboxState N W σ) : Frame T D s s := by
  constructor <;> intros <;> first | rfl | assumption

/-- An update at a touched place leaves the others. -/
theorem update_ne {α β : Type} [DecidableEq α] {P : α → Prop} {f : α → β} {a b : α} {v : β} (ha : P a)
    (hb : ¬ P b) : update f a v b = f b :=
  update_of_ne (by rintro rfl; exact hb ha) _ _

variable (f : Frame T D s s')

include f

theorem withSched (sched : Sched N W σ) : Frame T D s { s' with sched := sched } := { f with }

theorem setPlace (hc : T c) (p : MboxPlace N) : Frame T D s (s'.setPlace c p) :=
  { f with place := fun y hy => (update_ne hc hy).trans (f.place y hy) }

theorem setRetval (hc : T c) (v : ℤ) : Frame T D s (s'.setRetval c v) :=
  { f with retval := fun y hy => (update_ne hc hy).trans (f.retval y hy) }

theorem setHeld (hc : T c) (holder : Option (Holder N)) :
    Frame T D s { s' with held := update s'.held c holder } :=
  { f with held := fun y hy => (update_ne hc hy).trans (f.held y hy) }

theorem sends (hc : T c) (tx : MboxMsg N) : Frame T D s (s'.sends c tx) :=
  { f with
    txMsg := fun y hy => (update_ne hc hy).trans (f.txMsg y hy)
    sent := fun y hy => (update_ne hc hy).trans (f.sent y hy)
    puts := fun y hy => (update_ne hc hy).trans (f.puts y hy) }

theorem returns (hc : T c) (code : ℤ) : Frame T D s (s'.returns c code) :=
  { f with place := fun y hy => (update_ne hc hy).trans (f.place y hy) }

theorem setRxMsg (hd : D d) (rx : MboxMsg N) : Frame T D s { s' with rxMsg := update s'.rxMsg d rx } :=
  { f with rxMsg := fun d' hd' => (update_ne hd hd').trans (f.rxMsg d' hd') }

theorem asks (hd : D d) (rx : MboxMsg N) : Frame T D s (s'.asks d rx) :=
  { f with
    rxMsg := fun d' hd' => (update_ne hd hd').trans (f.rxMsg d' hd')
    asked := fun d' hd' => (update_ne hd hd').trans (f.asked d' hd')
    kept := fun d' hd' => (update_ne hd hd').trans (f.kept d' hd')
    discarded := fun d' hd' => (update_ne hd hd').trans (f.discarded d' hd') }

theorem meets (hh : T g) (hd : D d) (tx rx : MboxMsg N) : Frame T D s (s'.meets g d tx rx) :=
  { f with
    txMsg := fun y hy => (update_ne hh hy).trans (f.txMsg y hy)
    held := fun y hy => (update_ne hh hy).trans (f.held y hy)
    rxMsg := fun d' hd' => (update_ne hd hd').trans (f.rxMsg d' hd')
    kept := fun d' hd' => (update_ne hd hd').trans (f.kept d' hd')
    met := fun x hx hT => by
      rcases List.mem_append.1 hx with hx | hx
      · exact f.met x hx hT
      · rw [List.mem_singleton.1 hx] at hT
        exact absurd hh hT }

theorem discards (hd : D d) :
    Frame T D s { s'.setRxSize d 0 with discarded := update s'.discarded d true } :=
  { f.setRxMsg hd { s'.rxMsg d with size := 0 } with
    discarded := fun d' hd' => (update_ne hd hd').trans (f.discarded d' hd') }

theorem gone (hh : T g) (hd : D d) : Frame T D s (MboxLedger.gone s' d g) :=
  { f with
    txMsg := fun y hy => (update_ne hh hy).trans (f.txMsg y hy)
    rxMsg := fun d' hd' => (update_ne hd hd').trans (f.rxMsg d' hd') }

theorem offering (hy : ¬ T y) (h : s.Offering y) : s'.Offering y :=
  h.congr (f.place y hy) (f.retval y hy) (f.held y hy) (f.txMsg y hy) (f.sent y hy) (f.puts y hy)
    fun x hx hxy => f.met x hx (hxy ▸ hy)

theorem asking (hy : ¬ T y) (hd : ¬ D (s.rxDesc y)) (h : s.Asking y) : s'.Asking y :=
  h.congr (f.place y hy) (f.retval y hy) (f.rxDesc y hy) (f.kept _ hd) (f.discarded _ hd) (f.rxMsg _ hd) (f.asked _ hd)

end Frame

variable {t : Sched N W σ} {mbox : KMbox W}

/-- The first of the list that matches. -/
theorem match_of_findSome {l : List (Fin N)} {match? : Fin N → Option (MboxMsg N × MboxMsg N)}
    {m : Fin N × MboxMsg N × MboxMsg N}
    (hf : (l.findSome? fun y => (match? y).map fun m => (y, m)) = some m) : m.1 ∈ l ∧ match? m.1 = some m.2 := by
  obtain ⟨y, hy, hm⟩ := List.exists_of_findSome?_eq_some hf
  obtain ⟨m', hm', rfl⟩ := map_eq_some_iff.1 hm
  exact ⟨hy, hm'⟩

namespace MboxInv

variable {T : Fin N → Prop} {D : Nat → Prop} (h : MboxInv H cfg mboxes s)

include h

/-- The invariant behind a step: whoever waits waited before and is not touched, or is in order on its own. -/
theorem next (hf : Frame T D s s') (hidle : ¬ T cfg.idle) (hl : MboxLedger s') (hv : Veiled H cfg s'.sched s'.isHeld)
    (hoffers : ∀ m ∈ mboxes, ∀ y, s'.Waits m.txMsgQueue y → s.Waits m.txMsgQueue y ∧ ¬ T y ∨ s'.Offering y)
    (hasks : ∀ m ∈ mboxes, ∀ y, s'.Waits m.rxMsgQueue y →
      (s.Waits m.rxMsgQueue y ∧ ¬ T y ∧ ¬ D (s.rxDesc y)) ∨ s'.Asking y) :
    MboxInv H cfg mboxes s' where
  veiled := hv
  idle := by rw [hf.place _ hidle]; exact h.idle
  offers m hm y hy := by
    rcases hoffers m hm y hy with ⟨hw, hT⟩ | ho
    · exact hf.offering hT (h.offers m hm y hw)
    · exact ho
  asks m hm y hy := by
    rcases hasks m hm y hy with ⟨hw, hT, hD⟩ | ha
    · exact hf.asking hT hD (h.asks m hm y hw)
    · exact ha
  ledger := hl

/-- The same when nobody comes to wait; `X` are the senders that are held then. -/
theorem next_of {X : Fin N → Bool} (hf : Frame T D s s') (hidle : ¬ T cfg.idle) (hl : MboxLedger s')
    (hX : s'.isHeld = X) (hv : Veiled H cfg s'.sched X) (hw : ∀ {w y}, s'.sched.Waits X w y → s.Waits w y ∧ ¬ T y)
    (hd : ∀ m ∈ mboxes, ∀ y, s.Waits m.rxMsgQueue y → ¬ T y → ¬ D (s.rxDesc y)) : MboxInv H cfg mboxes s' := by
  subst hX
  exact h.next hf hidle hl hv (fun _ _ _ hy => .inl (hw hy)) fun m hm y hy =>
    .inl ⟨(hw hy).1, (hw hy).2, hd m hm y (hw hy).1 (hw hy).2⟩

/-- The thread that runs waits for nothing. -/
theorem ne_current (hn : s.sched.nested = 0) {w : W} (hy : s.Waits w y) : y ≠ s.sched.current := by
  rintro rfl
  exact h.veiled.not_waits_current hn hy

theorem held_current : s.held s.sched.current = none := isHeld_eq_false.1 h.veiled.current_shown

theorem current_ne_idle (hp : s.place s.sched.current ≠ .outside) : s.sched.current ≠ cfg.idle := by
  intro hc
  rw [hc] at hp
  exact hp h.idle

/-- A descriptor that somebody waits with is in use by nobody else. -/
theorem rxDesc_ne {m : KMbox W} (hm : m ∈ mboxes) (hy : s.Waits m.rxMsgQueue y)
    (hd : ∀ t, (s.place t).desc? = some d → t ≠ y) : s.rxDesc y ≠ d := by
  obtain ⟨b, hb⟩ := (h.asks m hm y hy).place
  intro hyd
  exact hd y (by rw [hb, ← hyd]; rfl) rfl

/-! ## Steps of the rest of the system -/

/-- The scheduler has done something on its own. -/
theorem withSched (hv : Veiled H cfg t s.isHeld)
    (hw : ∀ m ∈ mboxes, ∀ y, ∀ w, w = m.txMsgQueue ∨ w = m.rxMsgQueue → t.Waits s.isHeld w y → s.Waits w y) :
    MboxInv H cfg mboxes { s with sched := t } := by
  refine h.next ((Frame.refl (fun _ => False) (fun _ => False) s).withSched t) id (h.ledger.withSched t) hv
    (fun m hm y hy => ?_)
    fun m hm y hy => ?_
  · exact .inl ⟨hw m hm y _ (.inl rfl) hy, id⟩
  · exact .inl ⟨hw m hm y _ (.inr rfl) hy, id, id⟩

/-- **A step that uses no mailbox** -/
theorem sched_step {op : SchedOp N W} (hlegal : op.Legal H cfg s.sched) (hspare : s.Spares mboxes op)
    (hun : s.Undisturbed op) (hrekey : ∀ L, SchedInv H cfg s.sched L s.isHeld →
      ∀ x k w, op = .prioritySet x k → x ∈ L (.waitq w) → H.RekeyOk s.sched.prio (L (.waitq w)) x k) :
    ∃ s', MboxOp.exec Q each cfg s (.sched op) = some s' ∧ MboxInv H cfg mboxes s' := by
  have hdone : ∀ {t}, op.exec Q cfg s.sched = some t →
    MboxOp.exec Q each cfg s (.sched op) = some { s with sched := t } := by
    intro t ht
    simp only [MboxOp.exec, ht, map_some]
  by_cases hmiss : op.Misses s.isHeld
  · have hresume : ResumesOthers s.sched op := by
      cases op with
      | resume thread => exact hun.1
      | _ => trivial
    obtain ⟨t, ht, hv, hw⟩ := exec_veiled h.veiled hlegal hmiss fun L hinv => op.fine_of hresume (hrekey L hinv)
    refine ⟨_, hdone ht, h.withSched hv fun m hm y w hwm => hw w y ?_⟩
    cases op with
    | pendCurrent => rcases hwm with rfl | rfl <;> first | exact (hspare m hm).1 | exact (hspare m hm).2
    | pendDummy => rcases hwm with rfl | rfl <;> first | exact (hspare.2 m hm).1 | exact (hspare.2 m hm).2
    | _ => trivial
  · -- the operation is for a sender that has been matched
    cases op with
    | start | abort | unpend => exact absurd (isHeld_eq_false.2 hspare) hmiss
    | pendDummy thread w forever =>
      have hput := h.ledger.busy thread (isHeld_eq_true.1 (Bool.of_not_eq_false hmiss))
      rw [hspare.1] at hput
      simp at hput
    | expire thread =>
      have hactive := hlegal.2.2
      simp [ThreadBase.isThreadTimeoutActive, (h.veiled.aside (Bool.of_not_eq_false hmiss)).2.2.1] at hactive
    | suspend thread =>
      obtain ⟨t, ht, hv, hw⟩ := suspend_hidden (Q := Q) h.veiled (Bool.of_not_eq_false hmiss)
      exact ⟨_, hdone ht, h.withSched hv fun m hm y w _ => hw w y⟩
    | resume thread =>
      have hheld := Bool.of_not_eq_false hmiss
      obtain ⟨t, ht, hv, hw⟩ := resume_hidden (Q := Q) h.veiled hheld (hun.2 (isHeld_eq_true.1 hheld))
      exact ⟨_, hdone ht, h.withSched hv fun m hm y w _ => hw w y⟩
    | prioritySet thread prio =>
      have hheld := Bool.of_not_eq_false hmiss
      obtain ⟨t, ht, hv, hw⟩ := prioritySet_hidden (Q := Q) h.veiled hheld (hun (isHeld_eq_true.1 hheld)) hlegal.2.2
      exact ⟨_, hdone ht, h.withSched hv fun m hm y w _ => hw w y⟩
    | wakeup thread => exact ⟨_, hdone (wakeup_hidden h.veiled (Bool.of_not_eq_false hmiss)), h⟩
    | _ => exact absurd trivial hmiss

/-! ## Sending -/

/-- The state in which `mbox_message_put` is called. -/
theorem sending (hc : s.place c = .outside) (hi : c ≠ cfg.idle) (hw : ∀ w, ¬ s.Waits w c) (tx : MboxMsg N)
    (hsync : tx.syncingThread = some c) :
    MboxInv H cfg mboxes (((s.sends c tx).setPlace c .put).setRetval c eagain) ∧
      (((s.sends c tx).setPlace c .put).setRetval c eagain).Offering c := by
  have hheld : s.held c = none := by
    by_contra hne
    simpa [hc] using h.ledger.busy c hne
  have hframe : Frame (· = c) (fun _ => False) s (((s.sends c tx).setPlace c .put).setRetval c eagain) :=
    (((Frame.refl (· = c) (fun _ => False) s).sends rfl tx).setPlace rfl .put).setRetval rfl eagain
  have hl : MboxLedger (((s.sends c tx).setRetval c eagain).setPlace c .put) :=
    ((h.ledger.sends hc).setRetval (fun h0 => absurd h0 (by decide)) fun h0 => absurd h0 (by decide)).setPlace hheld
      (by simp [MboxLedger.Suits, MboxState.setRetval, eagain])
  refine ⟨h.next_of hframe (Ne.symm hi) hl rfl h.veiled (fun hy => ⟨hy, ?_⟩) fun _ _ _ _ _ => id, ?_⟩
  · rintro rfl
    exact hw _ hy
  · refine ⟨?_, ?_, hheld, fun x hx hxc hnum => ?_, ?_, ?_⟩
    · simp [MboxState.setPlace, MboxState.setRetval]
    · simp [MboxState.setRetval, eagain]
    · -- the message has a number that no other message of the thread had
      have hle := h.ledger.bound x hx
      simp only [MboxState.setRetval, MboxState.setPlace, MboxState.sends, update_self] at hnum
      rw [hxc] at hle
      omega
    · simp [MboxState.setPlace, MboxState.setRetval, MboxState.sends]
    · simpa [MboxState.setPlace, MboxState.setRetval, MboxState.sends] using hsync

/-- The ledger when a message that is offered has been matched with the descriptor of a waiting thread. -/
theorem meets_ledger (ho : s.Offering c) (ha : s.Asking r) {m : MboxMsg N × MboxMsg N}
    (hm : mboxMessageMatch (s.txMsg c) (s.rxMsg (s.rxDesc r)) = some m) :
    MboxLedger ((s.meets c (s.rxDesc r) m.1 m.2).setRetval r 0) := by
  obtain ⟨b, hb⟩ := ha.place
  refine (h.ledger.meets ho ha.rxMsg ha.discarded hm).setRetval (fun _ hp => ?_) fun _ d' b' hp => ?_
  · cases hb.symm.trans hp
  · rw [show (s.meets c (s.rxDesc r) m.1 m.2).place r = s.place r from rfl, hb] at hp
    obtain ⟨rfl, -⟩ : s.rxDesc r = d' ∧ b = b' := by simpa using hp
    simp [MboxState.meets]

/-- **A message is matched with a waiting receiver**: `t` is the scheduler in the end, with the sender put aside. -/
theorem meets_inv (ho : s.Offering c) (hi : c ≠ cfg.idle) (hc : ∀ w, ¬ s.Waits w c) (hmbox : mbox ∈ mboxes)
    (hr : s.Waits mbox.rxMsgQueue r) {m : MboxMsg N × MboxMsg N}
    (hm : mboxMessageMatch (s.txMsg c) (s.rxMsg (s.rxDesc r)) = some m) (hv : Veiled H cfg t (update s.isHeld c true))
    (hw : ∀ w y, t.Waits (update s.isHeld c true) w y → s.Waits w y ∧ y ≠ r) :
    MboxInv H cfg mboxes { (s.meets c (s.rxDesc r) m.1 m.2).setRetval r 0 with sched := t } := by
  have ha := h.asks mbox hmbox r hr
  obtain ⟨b, hb⟩ := ha.place
  have hri : r ≠ cfg.idle := by
    rintro rfl
    cases h.idle.symm.trans hb
  refine h.next_of ((((Frame.refl (fun y => y = c ∨ y = r) (· = s.rxDesc r) s).meets
    (.inl rfl) rfl _ _).setRetval (.inr rfl) 0).withSched t) (by simp [Ne.symm hi, Ne.symm hri])
    ((h.meets_ledger ho ha hm).withSched t) (isHeld_update (some (.desc (s.rxDesc r))) rfl rfl) hv
    (fun hy => ?_) fun m' hm' y hy hne => ?_
  · obtain ⟨hy', hyr⟩ := hw _ _ hy
    refine ⟨hy', ?_⟩
    rintro (rfl | rfl)
    · exact hc _ hy'
    · exact hyr rfl
  · -- a descriptor has one user
    refine h.rxDesc_ne hm' hy fun t' ht' hty => hne (.inr ?_)
    exact (hty ▸ h.ledger.users t' r (s.rxDesc r) ht' (by rw [hb]; rfl))

/-- A message that is not matched is offered in the queue. -/
theorem offers_inv (ho : s.Offering c) (hq : ∀ m ∈ mboxes, mbox.txMsgQueue ≠ m.rxMsgQueue)
    (hv : Veiled H cfg t s.isHeld) (hw : ∀ w y, y ≠ c ∨ mbox.txMsgQueue ≠ w → t.Waits s.isHeld w y →
      s.Waits w y) : MboxInv H cfg mboxes { s with sched := t } := by
  refine h.next ((Frame.refl (fun _ => False) (fun _ => False) s).withSched t) id (h.ledger.withSched t) hv
    (fun m hm y hy => ?_)
    fun m hm y hy => .inl ⟨hw _ y (.inr (hq m hm)) hy, id, id⟩
  by_cases hyc : y = c
  · exact .inr (hyc ▸ ho.congr rfl rfl rfl rfl rfl rfl fun _ hx _ => hx)
  · exact .inl ⟨hw _ y (.inl hyc) hy, id⟩

/-- A dummy thread in no queue takes the priority of the sender (mailbox.c:330). -/
theorem setPrio_veiled (hci : c ≠ cfg.idle) (hd : (s.sched.base c).dummy = true)
    (hp : (s.sched.base c).pending = false) {k : ℤ} (hk : H.Valid k) :
    MboxInv H cfg mboxes { s with sched := s.sched.setPrio c k } := by
  have hr : s.sched.isThreadReady c = false := by simp [Sched.isThreadReady, ready_eq, hd]
  obtain ⟨L, hinv⟩ := h.veiled
  have hout : ∀ w, c ∉ L (.waitq w) := fun w hw => not_waits hp (hinv.waits_iff.2 hw)
  obtain ⟨t, ht, hv⟩ := (threadPrioritySet_keeps hinv hci hk (fun w hw => absurd hw (hout w)) (.inr hr)).veiled
  rw [threadPrioritySet, if_neg (by simp [hr])] at ht
  cases ht
  exact h.withSched hv fun m hm y w _ hw => hw

section walks

variable (hwalk : H.Walks each) (hq : ∀ m ∈ mboxes, ∀ m' ∈ mboxes, m.txMsgQueue ≠ m'.rxMsgQueue)

include hwalk hq

/-- **`mbox_message_put` (mailbox.c:238)** for the thread that runs. -/
theorem mboxMessagePut_current (hn : s.sched.nested = 0) (hi : s.sched.current ≠ cfg.idle)
    (ho : s.Offering s.sched.current) (hmbox : mbox ∈ mboxes) (timeout : Timeout) :
    ∃ s', mboxMessagePut Q each cfg s mbox s.sched.current timeout = some s' ∧ MboxInv H cfg mboxes s' := by
  obtain ⟨L, hinv⟩ := h.veiled
  have heach : each s.sched.queues mbox.rxMsgQueue = some (L (.waitq mbox.rxMsgQueue)) := hwalk _ _ _ hinv.rep _
  have hdummy : (s.sched.base s.sched.current).dummy = false := ((ready_iff _).1 (h.veiled.current_ready hn hi)).2.2.2.1
  have hc : ∀ w, ¬ s.Waits w s.sched.current := fun w => h.veiled.not_waits_current hn
  unfold mboxMessagePut
  simp only [heach, bind_eq_bind, bind_some]
  cases hfind : (L (.waitq mbox.rxMsgQueue)).findSome? fun r =>
      (mboxMessageMatch (s.txMsg s.sched.current) (s.rxMsg (s.rxDesc r))).map fun m => (r, m) with
  | some m =>
    obtain ⟨r, tx, rx⟩ := m
    obtain ⟨hr, hm⟩ := match_of_findSome hfind
    have hr' : s.Waits mbox.rxMsgQueue r := hinv.waits_iff.2 hr
    obtain ⟨t1, t, ht1, ht, hv, hcur, hnest, -, hw⟩ := unpend_veiled h.veiled hr'
    obtain ⟨u, hu, hv', hw'⟩ := parkCurrent_veils hv (hnest ▸ hn) (hcur ▸ hi)
    rw [hcur] at hv' hw'
    simp only [ht1, ht, bind_some]
    rw [if_neg (by simpa [MboxState.setRetval, MboxState.meets] using hdummy)]
    simp only [hu, bind_some]
    exact ⟨_, rfl, h.meets_inv ho hi hc hmbox hr' hm hv' fun w y hy => hw w y (hw' w y hy)⟩
  | none =>
    simp only
    split
    · -- K_NO_WAIT
      have hl : MboxLedger (s.returns s.sched.current enomsg) := h.ledger.returns ho.held fun h0 =>
        absurd h0 (by decide)
      exact ⟨_, rfl, h.next_of ((Frame.refl (· = s.sched.current) (fun _ => False) s).returns rfl enomsg)
        (Ne.symm hi) hl rfl h.veiled (fun hy => ⟨hy, h.ne_current hn hy⟩) fun _ _ _ _ _ => id⟩
    · rw [if_neg (by simpa using hdummy)]
      obtain ⟨t, ht, hv⟩ := (pendCurrentThread_keeps hinv hn hi mbox.txMsgQueue (timeout = .forever)).veiled
      simp only [ht, bind_some]
      exact ⟨_, rfl, h.offers_inv ho (fun m hm => hq mbox hmbox m hm) hv fun w y hne hw =>
        ⟨hw.1, pendCurrentThread_staysOff hne _ ht hw.2⟩⟩

/-- **`mbox_message_put` (mailbox.c:238)** for a dummy thread that nobody uses. -/
theorem mboxMessagePut_dummy (hn : s.sched.nested = 0) (hi : s.sched.current ≠ cfg.idle) (ho : s.Offering c)
    (hci : c ≠ cfg.idle)
    (hd : (s.sched.base c).dummy = true) (hp : (s.sched.base c).pending = false) (ht : (s.sched.base c).timeout = none)
    (hmbox : mbox ∈ mboxes) :
    ∃ s', mboxMessagePut Q each cfg s mbox c .forever = some s' ∧ MboxInv H cfg mboxes s' := by
  obtain ⟨L, hinv⟩ := h.veiled
  have heach : each s.sched.queues mbox.rxMsgQueue = some (L (.waitq mbox.rxMsgQueue)) := hwalk _ _ _ hinv.rep _
  have hX : s.isHeld c = false := isHeld_eq_false.2 ho.held
  have hc : ∀ w, ¬ s.Waits w c := fun w => not_waits hp
  have hcur : s.sched.current ≠ c := by
    rintro rfl
    have hd' := ((ready_iff _).1 (h.veiled.current_ready hn hi)).2.2.2.1
    simp [hd] at hd'
  unfold mboxMessagePut
  simp only [heach, bind_eq_bind, bind_some]
  cases hfind : (L (.waitq mbox.rxMsgQueue)).findSome? fun r =>
      (mboxMessageMatch (s.txMsg c) (s.rxMsg (s.rxDesc r))).map fun m => (r, m) with
  | some m =>
    obtain ⟨r, tx, rx⟩ := m
    obtain ⟨hr, hm⟩ := match_of_findSome hfind
    have hr' : s.Waits mbox.rxMsgQueue r := hinv.waits_iff.2 hr
    have hrc : c ≠ r := by
      rintro rfl
      exact hc _ hr'
    obtain ⟨t1, t, ht1, ht2, hv, hcur', hnest, hbase, hw⟩ := unpend_veiled h.veiled hr'
    simp only [ht1, ht2, bind_some]
    rw [if_pos (by simpa [MboxState.setRetval, MboxState.meets] using hd)]
    have hv' : Veiled H cfg t.reschedule (update s.isHeld c true) := by
      rw [← hbase c hrc] at hd hp ht
      exact (hv.insert_dummy hX hci (hcur' ▸ hcur) hd hp ht).reschedule
    refine ⟨_, rfl, h.meets_inv ho hci hc hmbox hr' hm hv' fun w y hy => hw w y ?_⟩
    have hbefore : t.Waits (update s.isHeld c true) w y := ⟨hy.1, reschedule_staysOff _ rfl hy.2⟩
    exact (Waits.of_insert hbefore).1
  | none =>
    simp only
    rw [if_neg (by simp), if_pos (by simpa using hd)]
    obtain ⟨t, htt, hv⟩ := (pend_dummy_keeps hinv hci hd hp ht mbox.txMsgQueue true hX).veiled
    simp only [htt, bind_some]
    exact ⟨_, rfl, h.offers_inv ho (fun m hm => hq mbox hmbox m hm) hv fun w y hne hw =>
      ⟨hw.1, pend_staysOff hne _ htt hw.2⟩⟩

theorem kMboxPut_inv (hcalls : s.Calls cfg) (hmbox : mbox ∈ mboxes) (msg : MboxMsg N) (timeout : Timeout) :
    ∃ s', kMboxPut Q each cfg s mbox msg timeout = some s' ∧ MboxInv H cfg mboxes s' := by
  obtain ⟨hn, hi, hp⟩ := hcalls
  obtain ⟨h1, ho⟩ := h.sending hp hi (fun w => h.veiled.not_waits_current hn)
    { msg with rxSourceThread := some s.sched.current, syncingThread := some s.sched.current } rfl
  exact h1.mboxMessagePut_current hwalk hq hn hi ho hmbox timeout

theorem kMboxAsyncPut_inv (hcalls : s.Calls cfg) (hmbox : mbox ∈ mboxes) (hci : c ≠ cfg.idle)
    (hplace : s.place c = .outside) (hd : (s.sched.base c).dummy = true) (hp : (s.sched.base c).pending = false)
    (ht : (s.sched.base c).timeout = none) (msg : MboxMsg N) :
    ∃ s', kMboxAsyncPut Q each cfg s mbox c msg = some s' ∧ MboxInv H cfg mboxes s' := by
  obtain ⟨hn, hi, -⟩ := hcalls
  obtain ⟨L, hinv⟩ := h.veiled
  have hprio := h.setPrio_veiled hci hd hp (hinv.valid _ hi)
  have hw : ∀ w, ¬ ({ s with sched := s.sched.setPrio c (s.sched.prio s.sched.current) } : MboxState N W σ).Waits w c :=
    fun w => not_waits hp
  obtain ⟨h1, ho⟩ := hprio.sending hplace hci hw
    { msg with rxSourceThread := some s.sched.current, syncingThread := some c } rfl
  exact h1.mboxMessagePut_dummy hwalk hq hn hi ho hci hd hp ht hmbox

/-! ## Receiving -/

/-- **`k_mbox_get` (mailbox.c:421)** with a descriptor that nobody else uses. -/
theorem getAsked_inv (hcalls : s.Calls cfg) (hmbox : mbox ∈ mboxes) (hfree : s.Free d)
    (hkept : s.kept d = none) (hdis : s.discarded d = false)
    (hrx : s.rxMsg d = s.asked d) (buffer : Bool) (timeout : Timeout) :
    ∃ s', getAsked Q each cfg s mbox d buffer timeout = some s' ∧ MboxInv H cfg mboxes s' := by
  obtain ⟨hn, hi, hp⟩ := hcalls
  have hdesc : ∀ m ∈ mboxes, ∀ y, s.Waits m.rxMsgQueue y → s.rxDesc y ≠ d := fun m hm y hy =>
    h.rxDesc_ne hm hy fun t ht => absurd ht (hfree t)
  obtain ⟨L, hinv⟩ := h.veiled
  have heach : each s.sched.queues mbox.txMsgQueue = some (L (.waitq mbox.txMsgQueue)) := hwalk _ _ _ hinv.rep _
  unfold getAsked
  simp only [heach, bind_eq_bind, bind_some]
  cases hfind : (L (.waitq mbox.txMsgQueue)).findSome? fun h => (mboxMessageMatch (s.txMsg h) (s.rxMsg d)).map
    fun m => (h, m) with
  | some m =>
    obtain ⟨g, tx, rx⟩ := m
    obtain ⟨hg, hm⟩ := match_of_findSome hfind
    have hg' : s.Waits mbox.txMsgQueue g := hinv.waits_iff.2 hg
    have ho := h.offers mbox hmbox g hg'
    have hgc : g ≠ s.sched.current := h.ne_current hn hg'
    have hgi : g ≠ cfg.idle := (hinv.waiting hg).1
    obtain ⟨t, ht, hv, hcur, hw⟩ := unpendThread_veils h.veiled hn hg'
    simp only [ht, bind_some]
    have hl : MboxLedger ((s.meets g d tx rx).setPlace s.sched.current (.check d buffer)) := by
      refine (h.ledger.meets ho hrx hdis hm).setPlace ?_ ⟨fun t' _ => hfree t', by simp [MboxState.meets]⟩
      simpa [MboxState.meets, Ne.symm hgc] using h.held_current
    refine ⟨_, rfl, h.next_of
      ((((Frame.refl (fun y => y = g ∨ y = s.sched.current) (· = d) s).meets (.inl rfl) rfl _ _).setPlace
        (.inr rfl) _).withSched t) (by simp [Ne.symm hgi, Ne.symm hi]) (hl.withSched t)
      (isHeld_update (some (.desc d)) rfl rfl) hv (fun hy => ?_) fun m hm y hy _ => hdesc m hm y hy⟩
    obtain ⟨hy', hyg⟩ := hw _ _ hy
    exact ⟨hy', fun hor => hor.elim hyg (h.ne_current hn hy')⟩
  | none =>
    simp only
    split
    · exact ⟨s, rfl, h⟩
    · obtain ⟨t, ht, hv⟩ := (pendCurrentThread_keeps hinv hn hi mbox.rxMsgQueue (timeout = .forever)).veiled
      simp only [ht, bind_some]
      have hl : MboxLedger ((s.setRetval s.sched.current eagain).setPlace s.sched.current (.get d buffer)) :=
        (h.ledger.setRetval (fun h0 => absurd h0 (by decide)) fun h0 => absurd h0 (by decide)).setPlace h.held_current
          ⟨fun t' _ => hfree t', by simp [MboxState.setRetval, eagain]⟩
      have hframe : Frame (· = s.sched.current) (fun _ => False) s
          { (s.setPlace s.sched.current (.get d buffer)).setRetval s.sched.current eagain with
            sched := t, rxDesc := update s.rxDesc s.sched.current d } :=
        { ((Frame.refl (· = s.sched.current) (fun _ => False) s).setPlace rfl (.get d buffer)).setRetval rfl eagain with
          rxDesc := fun y hy => update_of_ne hy _ _ }
      have hstay : ∀ w y, y ≠ s.sched.current ∨ mbox.rxMsgQueue ≠ w → t.Waits s.isHeld w y → s.Waits w y :=
        fun w y hne hw =>
        ⟨hw.1, pendCurrentThread_staysOff hne _ ht hw.2⟩
      refine ⟨_, rfl, h.next hframe (Ne.symm hi) { hl with kept := fun d x h hx hh => { hl.kept d x h hx hh with } } hv
        (fun m hm y hy => ?_) fun m hm y hy => ?_⟩
      · have hy' := hstay _ y (.inr (Ne.symm (hq m hm mbox hmbox))) hy
        exact .inl ⟨hy', h.ne_current hn hy'⟩
      · by_cases hyc : y = s.sched.current
        · right
          subst hyc
          refine ⟨⟨buffer, ?_⟩, ?_, ?_, ?_, ?_⟩
          · simp [MboxState.setPlace, MboxState.setRetval]
          · simp [MboxState.setRetval, eagain]
          · simpa [MboxState.setPlace, MboxState.setRetval] using hkept
          · simpa [MboxState.setPlace, MboxState.setRetval] using hdis
          · simpa [MboxState.setPlace, MboxState.setRetval] using hrx
        · exact .inl ⟨hstay _ y (.inl hyc) hy, hyc, id⟩

theorem kMboxGet_inv (hcalls : s.Calls cfg) (hmbox : mbox ∈ mboxes) (hfree : s.Free d) (msg : MboxMsg N)
    (buffer : Bool) (timeout : Timeout) :
    ∃ s', kMboxGet Q each cfg s mbox d msg buffer timeout = some s' ∧ MboxInv H cfg mboxes s' := by
  have h1 : MboxInv H cfg mboxes (s.asks d { msg with txTargetThread := some s.sched.current }) :=
    h.next_of ((Frame.refl (fun _ => False) (· = d) s).asks rfl _) id (h.ledger.asks hfree) rfl h.veiled
    (fun hy => ⟨hy, id⟩) fun m hm y hy _ => h.rxDesc_ne hm hy fun t ht => absurd ht (hfree t)
  exact h1.getAsked_inv hwalk hq hcalls hmbox hfree (by simp [MboxState.asks]) (by simp [MboxState.asks])
    (by simp [MboxState.asks]) buffer timeout

end walks

theorem only_user (hc : (s.place c).desc? = some d) : ∀ t, t ≠ c → (s.place t).desc? ≠ some d :=
  fun t ht htd => ht (h.ledger.users t c d htd hc)

section runs

variable (hn : s.sched.nested = 0) (hi : s.sched.current ≠ cfg.idle)

include hn hi

/-- The thread that runs goes on to another place. -/
theorem setPlace {p : MboxPlace N}
    (hp : MboxLedger.Suits s s.sched.current p) : MboxInv H cfg mboxes (s.setPlace s.sched.current p) :=
  h.next_of ((Frame.refl (· = s.sched.current) (fun _ => False) s).setPlace rfl p) (Ne.symm hi)
  (h.ledger.setPlace h.held_current hp) rfl h.veiled (fun hy => ⟨hy, h.ne_current hn hy⟩) fun _ _ _ _ _ => id

omit hi in
/-- Only the thread that runs uses the descriptor. -/
theorem desc_ne (hd : ∀ t, t ≠ s.sched.current → (s.place t).desc? ≠ some d) {m : KMbox W} (hm : m ∈ mboxes)
    (hy : s.Waits m.rxMsgQueue y) : s.rxDesc y ≠ d := by
  refine h.rxDesc_ne hm hy fun t ht => ?_
  rintro rfl
  exact hd t (h.ne_current hn hy) ht

/-- Whoever waits is neither a sender that is held nor the thread that runs, and the idle thread is neither. -/
theorem held_apart (hX : s.isHeld g = true) :
    ¬ (cfg.idle = g ∨ cfg.idle = s.sched.current) ∧ ∀ {w y}, s.Waits w y → ¬ (y = g ∨ y = s.sched.current) := by
  constructor
  · rintro (rfl | hc)
    · simp [h.veiled.idle_shown] at hX
    · exact hi hc.symm
  · rintro w y hy (rfl | rfl)
    · simp [hy.1] at hX
    · exact h.ne_current hn hy rfl

section

variable (hd : ∀ t, t ≠ s.sched.current → (s.place t).desc? ≠ some d) (hk : s.kept d ≠ none)

include hd hk

/-- **`k_mbox_data_get` (mailbox.c:339)** -/
theorem kMboxDataGet_inv (buffer : Bool) : MboxInv H cfg mboxes (kMboxDataGet s d buffer) := by
  cases buffer with
  | true => exact h.setPlace hn hi ⟨hd, hk⟩
  | false =>
    have h1 : MboxInv H cfg mboxes { s.setRxSize d 0 with discarded := update s.discarded d true } :=
      h.next_of ((Frame.refl (fun _ => False) (· = d) s).discards rfl) id h.ledger.discards rfl h.veiled
      (fun hy => ⟨hy, id⟩) fun m hm y hy _ => h.desc_ne hn hd hm hy
    exact h1.setPlace hn hi ⟨hd, hk⟩

theorem mboxMessageDataCheck_inv (buffer : Bool) : MboxInv H cfg mboxes (mboxMessageDataCheck s d buffer) := by
  unfold mboxMessageDataCheck
  split
  · exact h.kMboxDataGet_inv hn hi hd hk true
  · split
    · exact h.setPlace hn hi ⟨hd, hk⟩
    · exact h.setPlace hn hi trivial

theorem kMboxDataBlockGet_inv (pool alloc : Bool) : MboxInv H cfg mboxes (kMboxDataBlockGet s d pool alloc) := by
  unfold kMboxDataBlockGet
  split
  · exact h.kMboxDataGet_inv hn hi hd hk false
  · split
    · have h1 : MboxInv H cfg mboxes { s with rxMsg := update s.rxMsg d { s.rxMsg d with txBlock := none } } :=
        h.next_of ((Frame.refl (fun _ => False) (· = d) s).setRxMsg rfl _) id h.ledger.takesBlock rfl h.veiled
        (fun hy => ⟨hy, id⟩) fun m hm y hy _ => h.desc_ne hn hd hm hy
      exact h1.setPlace hn hi ⟨hd, hk⟩
    · split
      · exact h.kMboxDataGet_inv hn hi hd hk true
      · exact h

end

end runs

/-! ## Disposing -/

/-- **`mbox_message_dispose` (mailbox.c:176)** -/
theorem dispose_inv (hn : s.sched.nested = 0) (hp : s.place s.sched.current = .dispose d) :
    MboxInv H cfg mboxes (mboxMessageDispose s d) := by
  have hi := h.current_ne_idle (by simp [hp])
  have hd : ∀ t, t ≠ s.sched.current → (s.place t).desc? ≠ some d := h.only_user (by rw [hp]; rfl)
  have hl := h.ledger.dispose_ledger h.held_current hp
  unfold mboxMessageDispose at hl ⊢
  cases hsync : (s.rxMsg d).syncingThread with
  | none => exact h.setPlace hn hi trivial
  | some g =>
    simp only [hsync] at hl
    obtain ⟨x, hx⟩ := ne_none_iff_exists'.1 (h.ledger.dispose _ d hp)
    have hheld := (h.ledger.kept d x g hx hsync).held
    have hX : s.isHeld g = true := isHeld_eq_true.2 (by simp [hheld])
    obtain ⟨hidle, hothers⟩ := h.held_apart hn hi hX
    have hgone : Frame (fun y => y = g ∨ y = s.sched.current) (· = d) s (MboxLedger.gone s d g) :=
      (Frame.refl _ _ s).gone (.inl rfl) rfl
    simp only
    split at hl
    · rename_i hdummy
      rw [if_pos hdummy]
      have hlift : ∀ {w y}, s.sched.Waits (update s.isHeld g false) w y → s.Waits w y :=
        Waits.of_remove ((h.veiled.aside hX).2.2.2 hdummy)
      exact h.next_of (((hgone.setPlace (.inl rfl) .outside).setPlace (.inr rfl) .outside).setHeld
        (.inl rfl) none) hidle hl
        (isHeld_update none rfl rfl) (h.veiled.remove_dummy hX hdummy) (fun hy => ⟨hlift hy, hothers (hlift hy)⟩)
        fun m hm y hy _ => h.desc_ne hn hd hm hy
    · rename_i hdummy
      rw [if_neg hdummy]
      refine h.next_of ((hgone.setPlace (.inr rfl) (.wake g)).setHeld (.inl rfl)
        (some (.waker s.sched.current))) hidle hl ?_ h.veiled
        (fun hy => ⟨hy, hothers hy⟩) fun m hm y hy _ => h.desc_ne hn hd hm hy
      rw [isHeld_update (s := s) _ rfl rfl, isSome_some, ← hX, update_eq_self]

/-- **The end of `mbox_message_dispose` (mailbox.c:216)** -/
theorem wakeSender_inv (hn : s.sched.nested = 0) (hp : s.place s.sched.current = .wake g) :
    ∃ s', wakeSender Q cfg s g = some s' ∧ MboxInv H cfg mboxes s' := by
  have hi := h.current_ne_idle (by simp [hp])
  obtain ⟨hheld, -⟩ := h.ledger.waker _ g hp
  have hX : s.isHeld g = true := isHeld_eq_true.2 (by simp [hheld])
  obtain ⟨hidle, hothers⟩ := h.held_apart hn hi hX
  obtain ⟨t, ht, hv, hw⟩ := wake_unveils (Q := Q) h.veiled hX
  have hl := (h.ledger.wake_ledger h.held_current hp).withSched t.reschedule
  exact ⟨_, by rw [wakeSender, ht]; rfl, h.next_of (T := fun y => y = g ∨ y = s.sched.current) (D := fun _ => False)
    (((((Frame.refl _ _ s).setRetval (.inl rfl) 0).setPlace (.inr rfl) .outside).setHeld
      (.inl rfl) none).withSched t.reschedule)
    hidle hl (isHeld_update none rfl rfl) hv (fun hy => ⟨hw _ _ hy, hothers (hw _ _ hy)⟩) fun _ _ _ _ _ => id⟩

/-- A thread goes on that was switched out, or has locked interrupts again. -/
theorem goOn_inv (hn : s.sched.nested = 0) (hp : s.place s.sched.current ≠ .outside) :
    ∃ s', MboxOp.exec Q each cfg s .goOn = some s' ∧ MboxInv H cfg mboxes s' := by
  have hi := h.current_ne_idle hp
  simp only [MboxOp.exec]
  cases hplace : s.place s.sched.current with
  | outside => exact absurd hplace hp
  | put =>
    have hl : MboxLedger (s.returns s.sched.current (s.retval s.sched.current)) :=
      h.ledger.returns h.held_current (h.ledger.done _ hplace)
    exact ⟨_, rfl, h.next_of ((Frame.refl (· = s.sched.current) (fun _ => False) s).returns rfl _)
      (Ne.symm hi) hl rfl h.veiled (fun hy => ⟨hy, h.ne_current hn hy⟩) fun _ _ _ _ _ => id⟩
  | get d buffer =>
    refine ⟨_, rfl, ?_⟩
    unfold getWoken
    split
    · rename_i hret
      exact h.setPlace hn hi ⟨h.only_user (by rw [hplace]; rfl), h.ledger.woken _ d buffer hplace hret⟩
    · exact h.setPlace hn hi trivial
  | check d buffer =>
    exact ⟨_, rfl, h.mboxMessageDataCheck_inv hn hi (h.only_user (by rw [hplace]; rfl))
      (h.ledger.check _ d buffer hplace) buffer⟩
  | dispose d => exact ⟨_, rfl, h.dispose_inv hn hplace⟩
  | wake g => exact h.wakeSender_inv hn hplace

/-! ## Every run -/

/-- **One step of any kind.** -/
theorem step (hwalk : H.Walks each) (hq : ∀ m ∈ mboxes, ∀ m' ∈ mboxes, m.txMsgQueue ≠ m'.rxMsgQueue)
    {op : MboxOp N W} (hlegal : op.Legal H cfg mboxes s) (hun : op.Outside s.Undisturbed)
    (hrekey : ∀ o, op = .sched o → ∀ L, SchedInv H cfg s.sched L s.isHeld → ∀ x k w, o = .prioritySet x k →
      x ∈ L (.waitq w) →
      H.RekeyOk s.sched.prio (L (.waitq w)) x k) : ∃ s', op.exec Q each cfg s = some s' ∧ MboxInv H cfg mboxes s' := by
  cases op with
  | sched o => exact h.sched_step hlegal.1 hlegal.2 hun (hrekey o rfl)
  | put mbox msg timeout => exact h.kMboxPut_inv hwalk hq hlegal.1 hlegal.2 msg timeout
  | asyncPut mbox async msg =>
    obtain ⟨hcalls, hmbox, hi, hplace, hd, hp, ht⟩ := hlegal
    exact h.kMboxAsyncPut_inv hwalk hq hcalls hmbox hi hplace hd hp ht msg
  | get mbox d msg buffer timeout => exact h.kMboxGet_inv hwalk hq hlegal.1 hlegal.2.1 hlegal.2.2 msg buffer timeout
  | dataGet d buffer =>
    obtain ⟨⟨hn, hi, -⟩, hfree, hk⟩ := hlegal
    exact ⟨_, rfl, h.kMboxDataGet_inv hn hi (fun t _ => hfree t) hk buffer⟩
  | dataBlockGet d pool alloc =>
    obtain ⟨⟨hn, hi, -⟩, hfree, hk⟩ := hlegal
    exact ⟨_, rfl, h.kMboxDataBlockGet_inv hn hi (fun t _ => hfree t) hk pool alloc⟩
  | goOn => exact h.goOn_inv hlegal.1 hlegal.2

theorem synchronous : s.Synchronous where
  once := h.ledger.once
  accepted := h.ledger.accepted
  rests x hx hun := by
    rintro hc
    exact (h.ledger.rests x hx hun).1 (hc ▸ h.held_current)
  returned := h.ledger.returned
  sizes e he := (h.ledger.disposed e he).2

end MboxInv

theorem MboxBooted.inv (h : MboxBooted H cfg s) (mboxes : List (KMbox W)) : MboxInv H cfg mboxes s := by
  have hX : s.isHeld = fun _ => false := funext fun y => isHeld_eq_false.2 (h.held y)
  have hwaits : ∀ w y, ¬ s.Waits w y := fun w y => not_waits (h.sched.base y).1
  refine ⟨⟨fun _ => [], hX ▸ h.sched.inv⟩, h.place _, fun m _ y hy => absurd hy (hwaits _ y),
    fun m _ y hy => absurd hy (hwaits _ y), ?_⟩
  constructor <;> simp [h.met, h.disposed, h.returned, h.kept, h.held, h.place, MboxPlace.desc?]

/-- In every run from boot whose steps are legal and meet `ok` the rendezvous are synchronous, and the run gets to
its end. -/
def KeepsSynchronous (H : Q.Lawful) (each : σ → W → Option (List (Fin N))) (cfg : Config N) (mboxes : List (KMbox W))
    (ok : MboxState N W σ → MboxOp N W → Prop) : Prop :=
  ∀ s0, MboxBooted H cfg s0 → ∀ ops, Runs.Along (MboxOp.exec Q each cfg)
  (fun s op => op.Legal H cfg mboxes s ∧ ok s op) s0 ops →
    ∃ s, Runs.run (MboxOp.exec Q each cfg) s0 ops = some s ∧ s.Synchronous

theorem keepsSynchronous_of (hwalk : H.Walks each) (hq : ∀ m ∈ mboxes, ∀ m' ∈ mboxes, m.txMsgQueue ≠ m'.rxMsgQueue)
    {ok : MboxState N W σ → MboxOp N W → Prop} (hun : ∀ s op, ok s op → op.Outside s.Undisturbed)
    (hrekey : ∀ s o, ok s (.sched o) → ∀ L, SchedInv H cfg s.sched L s.isHeld →
      ∀ x k w, o = .prioritySet x k → x ∈ L (.waitq w) →
      H.RekeyOk s.sched.prio (L (.waitq w)) x k) : KeepsSynchronous H each cfg mboxes ok := by
  intro s0 hboot ops hall
  obtain ⟨s, hrun, hinv⟩ := Runs.run_total (I := MboxInv H cfg mboxes)
    (fun s op h hop => h.step hwalk hq hop.1 (hun s op hop.2) fun o ho => hrekey s o (ho ▸ hop.2))
    (hboot.inv mboxes) hall
  exact ⟨s, hrun, hinv.synchronous⟩

/-- **A message of a mailbox is handed over synchronously** (mailbox.c), under each choice of queues, in every run
in which no matched sender is resumed or given a priority while it is out of every queue; and for trees, in which a
pending thread keeps its place. -/
theorem mbox_synchronous (N : Nat) (W : Type) [DecidableEq W] (hN : N ≤ 2 ^ 32) (highest : ℤ) (cfg : Config N)
    (mboxes : List (KMbox W)) (hq : ∀ m ∈ mboxes, ∀ m' ∈ mboxes, m.txMsgQueue ≠ m'.rxMsgQueue) :
    KeepsSynchronous (dumbLawful N W) dumbEach cfg mboxes (fun s op => op.Outside s.Undisturbed) ∧
      KeepsSynchronous (multiqLawful N W highest) multiqEach cfg mboxes (fun s op => op.Outside s.Undisturbed) ∧
      KeepsSynchronous (scalableLawful W hN) scalableEach cfg mboxes (fun s op => op.Outside fun o =>
        s.Undisturbed o ∧ KeepsPlaces s.sched o) := by
  refine ⟨?_, ?_, ?_⟩
  · exact keepsSynchronous_of dumbEach_walks hq (fun _ _ h => h) fun _ _ _ _ _ _ _ _ _ _ => trivial
  · exact keepsSynchronous_of multiqEach_walks hq (fun _ _ h => h) fun _ _ _ _ _ _ _ _ _ _ => trivial
  · refine keepsSynchronous_of scalableEach_walks hq (fun s op h => ?_) ?_
    · cases op with
      | sched o => exact h.1
      | _ => trivial
    · rintro s o ho L hinv x k w rfl hx
      exact KeepsPlaces.keepsPlace hinv ho.2 hx

/-- One mailbox, with lists in memory. -/
def mailbox : KMbox Bool := ⟨false, true⟩

/-- A descriptor for `size` bytes, from or for anyone. -/
def anyMsg (size : Nat) : MboxMsg 3 := ⟨size, 0, some 1, none, none, none, none⟩

/-- The idle thread, a sender and a receiver of one priority. -/
def bootMbox : MboxState 3 Bool (Links (QNode (QueueId Bool) 3)) where
  sched := ⟨initQueues [.runq, .waitq false, .waitq true] (anyLinks (QueueId Bool) 3), fun y => if y = 0 then 15 else 5,
    fun y => ⟨false, false, y ≠ 0, false, false, false, 0, none, none⟩, 0, 0, 0, fun _ => []⟩
  txMsg _ := anyMsg 0
  rxMsg _ := anyMsg 0
  rxDesc _ := 0
  place _ := .outside
  retval _ := 0
  puts _ := 0
  sent _ := anyMsg 0
  asked _ := anyMsg 0
  kept _ := none
  discarded _ := false
  held _ := none
  met := []
  disposed := []
  returned := []

theorem bootMbox_booted : MboxBooted (dumbLawful 3 Bool) (bootConfig 3) bootMbox where
  sched :=
    { rep := initQueues_rep (fun i => by rcases i with _ | (_ | _) <;> simp) _
      base := fun _ => ⟨rfl, rfl, rfl⟩
      prestart := fun y hy => by simpa [bootMbox, bootConfig] using hy
      current := rfl
      cache := rfl
      nested := rfl
      valid := fun _ _ => trivial
      arrivals := fun _ => rfl }
  place _ := rfl
  kept _ := rfl
  held _ := rfl
  met := rfl
  disposed := rfl
  returned := rfl

/-- A sender waits, and a receiver takes 8 of its 20 bytes without a buffer: the data are to be retrieved later. -/
def keptMessage : List (MboxOp 3 Bool) :=
  [.sched (.start 1), .put mailbox (anyMsg 20) .forever, .sched (.start 2),
    .get mailbox 0 (anyMsg 8) false .forever, .goOn]

/-- The receiver retrieves them, and the sender returns. -/
theorem mbox_synchronous_retrieved :
    ∃ s, Runs.run (MboxOp.exec (dumbQueues 3 Bool) dumbEach (bootConfig 3)) bootMbox
        (keptMessage ++ [.dataGet 0 true, .goOn, .goOn, .sched (.sleep 1), .goOn]) = some s ∧ s.Synchronous :=
  (mbox_synchronous 3 Bool (by decide) (-16) (bootConfig 3) [mailbox] (by decide)).1 _ bootMbox_booted _
  (by decide +kernel)

/-- **A sender runs before its message has been disposed of** (mailbox.c:436, sched.c:356). The receiver has the
message and has not retrieved its data; the sender is in no queue and is not pending. The receiver gives it a
higher priority. The scheduler takes it for ready and switches to it, and `k_mbox_put` returns -EAGAIN. -/
theorem sender_runs_early :
    Runs.Along (MboxOp.exec (dumbQueues 3 Bool) dumbEach (bootConfig 3))
    (fun s op => op.Legal (dumbLawful 3 Bool) (bootConfig 3) [mailbox] s)
        bootMbox (keptMessage ++ [.sched (.prioritySet 1 1), .goOn]) ∧
      ∃ s, Runs.run (MboxOp.exec (dumbQueues 3 Bool) dumbEach (bootConfig 3)) bootMbox
      (keptMessage ++ [.sched (.prioritySet 1 1), .goOn]) = some s ∧
        s.sched.current = 1 ∧ s.returned = [⟨1, 1, eagain, 20⟩] ∧ s.disposed = [] ∧ ¬ s.Synchronous := by
  refine ⟨by decide +kernel, Runs.exists_end (P := fun s => s.sched.current = 1 ∧
    s.returned = [⟨1, 1, eagain, 20⟩] ∧ s.disposed = [] ∧
    s.met.map Rendezvous.sender = [1]) (by decide +kernel) ?_⟩
  rintro s - ⟨hcur, hret, hdis, hmet⟩
  refine ⟨hcur, hret, hdis, fun hsync => ?_⟩
  obtain ⟨x, hx, hx1⟩ := List.mem_map.1 (show (1 : Fin 3) ∈ s.met.map Rendezvous.sender by simp [hmet])
  exact hsync.rests x hx (by simp [hdis]) (by rw [hcur, hx1])

end Zephyr
