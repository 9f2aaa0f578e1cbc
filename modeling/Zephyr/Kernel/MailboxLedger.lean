import Zephyr.Kernel.Mailbox
/-!
# What goes on between the descriptors of a mailbox

`MboxLedger` says which message is in which descriptor, which sender has been matched and not been woken, and that a
message is matched once, is let through by both filters, and is disposed of with the right size. It does not
look at the scheduler at all. Who is in `tx_msg_queue` is `Offering` a message that has not been matched, and who is in
`rx_msg_queue` is `Asking` for one.
-/
namespace Zephyr

open Sched Function List

variable {N : Nat} {W σ : Type} {s : MboxState N W σ} {x : Rendezvous N} {h t c y : Fin N} {d : Nat} {tx rx : MboxMsg N}

/-! ## The ledger -/

/-- The message that the thread is sending has been disposed of. -/
def MboxState.Settled (s : MboxState N W σ) (h : Fin N) : Prop :=
  ∃ e ∈ s.disposed, e.met ∈ s.met ∧ e.met.sender = h ∧ e.met.number = s.puts h ∧ e.txSize = (s.txMsg h).size

/-- The message `x` of `h` is in the descriptor `d`. -/
structure MboxState.Keeps (s : MboxState N W σ) (d : Nat) (x : Rendezvous N) (h : Fin N) : Prop where
  sender : x.sender = h
  number : x.number = s.puts h
  met : x ∈ s.met
  held : s.held h = some (.desc d)
  undisposed : ∀ e ∈ s.disposed, e.met ≠ x
  size : (s.rxMsg d).size = if s.discarded d then 0 else min x.tx.size x.rx.size

structure MboxLedger (s : MboxState N W σ) : Prop where
  once : (s.met.map fun x => (x.sender, x.number)).Nodup
  bound : ∀ x ∈ s.met, x.number ≤ s.puts x.sender
  accepted : ∀ x ∈ s.met, x.Accepted
  rests : ∀ x ∈ s.met, (∀ e ∈ s.disposed, e.met ≠ x) → s.held x.sender ≠ none ∧ s.puts x.sender = x.number
  kept : ∀ d x h, s.kept d = some x → (s.rxMsg d).syncingThread = some h → s.Keeps d x h
  waker : ∀ t h, s.place t = .wake h → s.held h = some (.waker t) ∧ s.Settled h
  done : ∀ t, s.place t = .put → s.retval t = 0 → s.Settled t
  disposed : ∀ e ∈ s.disposed, e.met ∈ s.met ∧ e.txSize = e.rxSize ∧ e.rxSize = if e.discarded then
    0 else min e.met.tx.size e.met.rx.size
  returned : ∀ r ∈ s.returned, r.code = 0 →
    ∃ e ∈ s.disposed, e.met ∈ s.met ∧ e.met.sender = r.sender ∧ e.met.number = r.number ∧ e.txSize = r.size
  busy : ∀ h, s.held h ≠ none → s.place h = .put
  users : ∀ t t' d, (s.place t).desc? = some d → (s.place t').desc? = some d → t = t'
  check : ∀ t d b, s.place t = .check d b → s.kept d ≠ none
  dispose : ∀ t d, s.place t = .dispose d → s.kept d ≠ none
  woken : ∀ t d b, s.place t = .get d b → s.retval t = 0 → s.kept d ≠ none

/-- The thread sends a message that has not been matched. -/
structure MboxState.Offering (s : MboxState N W σ) (y : Fin N) : Prop where
  place : s.place y = .put
  retval : s.retval y ≠ 0
  held : s.held y = none
  unmet : ∀ x ∈ s.met, x.sender = y → x.number ≠ s.puts y
  txMsg : s.txMsg y = s.sent y
  syncing : (s.sent y).syncingThread = some y

/-- The thread waits for a message. -/
structure MboxState.Asking (s : MboxState N W σ) (y : Fin N) : Prop where
  place : ∃ b, s.place y = .get (s.rxDesc y) b
  retval : s.retval y ≠ 0
  kept : s.kept (s.rxDesc y) = none
  discarded : s.discarded (s.rxDesc y) = false
  rxMsg : s.rxMsg (s.rxDesc y) = s.asked (s.rxDesc y)

open MboxState

theorem mboxMessageMatch_eq {m : MboxMsg N × MboxMsg N} (hm : mboxMessageMatch tx rx = some m) :
    ((tx.txTargetThread = none ∨ tx.txTargetThread = rx.txTargetThread) ∧
      (rx.rxSourceThread = none ∨ rx.rxSourceThread = tx.rxSourceThread)) ∧
      m.1.size = tx.size ∧ m.2.size = min tx.size rx.size ∧ m.2.syncingThread = tx.syncingThread := by
  unfold mboxMessageMatch at hm
  split at hm
  · rename_i hok
    cases hm
    refine ⟨hok, rfl, ?_, rfl⟩
    change (if rx.size > tx.size then tx.size else rx.size) = min tx.size rx.size
    split <;> omega
  · simp at hm

namespace MboxLedger

/-- A message can be matched that is offered, with a descriptor that has none yet. -/
theorem meets (hl : MboxLedger s) (ho : s.Offering h) (hask : s.rxMsg d = s.asked d) (hdis : s.discarded d = false)
    {m : MboxMsg N × MboxMsg N} (hm : mboxMessageMatch (s.txMsg h) (s.rxMsg d) = some m) :
    MboxLedger (s.meets h d m.1 m.2) := by
  obtain ⟨hok, -, hsize, hsync⟩ := mboxMessageMatch_eq hm
  rw [ho.txMsg, hask] at hok hsize
  rw [ho.txMsg, ho.syncing] at hsync
  have hnew : ∀ e ∈ s.disposed, e.met ≠ ⟨h, s.puts h, s.sent h, s.asked d⟩ := by
    intro e he heq
    exact ho.unmet e.met (hl.disposed e he).1 (by rw [heq]) (by rw [heq])
  have hset : ∀ g, g ≠ h → s.Settled g → (s.meets h d m.1 m.2).Settled g := by
    rintro g hg ⟨e, he, hmet, hsender, hnum, hsz⟩
    refine ⟨e, he, mem_append_left _ hmet, hsender, hnum, ?_⟩
    rw [hsz]
    simp [MboxState.meets, hg]
  have hheld : ∀ g, s.held g ≠ none → g ≠ h := fun g hg hgh => hg (hgh ▸ ho.held)
  have hkept : ∀ d', s.kept d' ≠ none → (s.meets h d m.1 m.2).kept d' ≠ none := by
    intro d' hd'
    by_cases hdd : d' = d
    · simp [MboxState.meets, hdd]
    · simpa [MboxState.meets, hdd] using hd'
  constructor
  case once =>
    simp only [MboxState.meets, map_append, map_cons, map_nil]
    rw [← concat_eq_append, nodup_concat]
    refine ⟨fun hmem => ?_, hl.once⟩
    obtain ⟨x, hx, he⟩ := mem_map.1 hmem
    rw [Prod.mk.injEq] at he
    exact ho.unmet x hx he.1 he.2
  case bound =>
    intro x hx
    rcases mem_append.1 hx with hx | hx
    · exact hl.bound x hx
    · rw [mem_singleton.1 hx]
      exact le_refl _
  case accepted =>
    intro x hx
    rcases mem_append.1 hx with hx | hx
    · exact hl.accepted x hx
    · rw [mem_singleton.1 hx]
      exact hok
  case rests =>
    intro x hx hun
    rcases mem_append.1 hx with hx | hx
    · obtain ⟨hh, hnum⟩ := hl.rests x hx hun
      exact ⟨by simpa [MboxState.meets, hheld _ hh] using hh, hnum⟩
    · rw [mem_singleton.1 hx]
      simp [MboxState.meets]
  case kept =>
    intro d' x g hx hg
    by_cases hdd : d' = d
    · subst hdd
      simp only [MboxState.meets, update_self, Option.some_inj] at hx hg
      rw [hsync, Option.some_inj] at hg
      subst hx hg
      exact ⟨rfl, rfl, mem_append_right _ (mem_singleton_self _), by simp [MboxState.meets], hnew,
        by simp [MboxState.meets, hdis, hsize]⟩
    · simp only [MboxState.meets, update_of_ne hdd] at hx hg
      have hk := hl.kept d' x g hx hg
      have hgh := hheld g (by simp [hk.held])
      have hrx : (s.meets h d m.1 m.2).rxMsg d' = s.rxMsg d' := update_of_ne hdd _ _
      exact ⟨hk.sender, hk.number, mem_append_left _ hk.met, by simpa [MboxState.meets, hgh] using hk.held,
        hk.undisposed,
        hrx ▸ hk.size⟩
  case waker =>
    intro t g ht
    obtain ⟨hg, hsettled⟩ := hl.waker t g ht
    have hgh := hheld g (by simp [hg])
    exact ⟨by simpa [MboxState.meets, hgh] using hg, hset g hgh hsettled⟩
  case done =>
    intro t ht hret
    refine hset t ?_ (hl.done t ht hret)
    rintro rfl
    exact ho.retval hret
  case disposed => exact fun e he => ⟨mem_append_left _ (hl.disposed e he).1, (hl.disposed e he).2⟩
  case returned =>
    intro r hr hcode
    obtain ⟨e, he, hmet, hrest⟩ := hl.returned r hr hcode
    exact ⟨e, he, mem_append_left _ hmet, hrest⟩
  case busy =>
    intro g hg
    by_cases hgh : g = h
    · exact hgh ▸ ho.place
    · exact hl.busy g (by simpa [MboxState.meets, hgh] using hg)
  case users => exact hl.users
  case check => exact fun t d' b ht => hkept d' (hl.check t d' b ht)
  case dispose => exact fun t d' ht => hkept d' (hl.dispose t d' ht)
  case woken => exact fun t d' b ht hret => hkept d' (hl.woken t d' b ht hret)

/-- What it takes for a thread to stand at a place. -/
def Suits (s : MboxState N W σ) (c : Fin N) : MboxPlace N → Prop
  | .outside => True
  | .put => s.retval c ≠ 0
  | .get d _ => (∀ t, t ≠ c → (s.place t).desc? ≠ some d) ∧ s.retval c ≠ 0
  | .check d _ | .dispose d => (∀ t, t ≠ c → (s.place t).desc? ≠ some d) ∧ s.kept d ≠ none
  | .wake h => s.held h = some (.waker c) ∧ s.Settled h

section

variable (hl : MboxLedger s)

include hl

theorem setPlace (hc : s.held c = none) {p : MboxPlace N} (hp : Suits s c p) : MboxLedger (s.setPlace c p) := by
  have hplace : ∀ {t q}, (s.setPlace c p).place t = q → t = c ∧ p = q ∨ t ≠ c ∧ s.place t = q := by
    intro t q ht
    by_cases htc : t = c
    · subst htc
      exact .inl ⟨rfl, by simpa [MboxState.setPlace] using ht⟩
    · exact .inr ⟨htc, by simpa [MboxState.setPlace, htc] using ht⟩
  have hdesc : ∀ d, p.desc? = some d → ∀ t, t ≠ c → (s.place t).desc? ≠ some d := by
    intro d hd
    cases p with
    | get d' b => exact Option.some_inj.1 hd ▸ hp.1
    | check d' b => exact Option.some_inj.1 hd ▸ hp.1
    | dispose d' => exact Option.some_inj.1 hd ▸ hp.1
    | _ => simp [MboxPlace.desc?] at hd
  refine { hl with kept := fun d x h hx hh => { hl.kept d x h hx hh with }, waker := ?waker, done := ?done,
                   busy := ?busy, users := ?users, check := ?checks, dispose := ?disposes, woken := ?woken }
  case waker =>
    intro t h ht
    rcases hplace ht with ⟨rfl, rfl⟩ | ⟨-, ht⟩
    · exact hp
    · exact hl.waker t h ht
  case done =>
    intro t ht hret
    rcases hplace ht with ⟨rfl, rfl⟩ | ⟨-, ht⟩
    · exact absurd hret hp
    · exact hl.done t ht hret
  case busy =>
    intro h hh
    have hne : h ≠ c := fun hhc => hh (hhc ▸ hc)
    rw [show (s.setPlace c p).place h = s.place h from update_of_ne hne _ _]
    exact hl.busy h hh
  case users =>
    intro t t' d ht ht'
    rcases hplace (t := t) rfl with ⟨rfl, hpt⟩ | ⟨htc, hpt⟩ <;>
      rcases hplace (t := t') rfl with ⟨rfl, hpt'⟩ | ⟨htc', hpt'⟩
    · rfl
    · exact absurd (hpt' ▸ ht') (hdesc d (hpt ▸ ht) t' htc')
    · exact absurd (hpt ▸ ht) (hdesc d (hpt' ▸ ht') t htc)
    · exact hl.users t t' d (hpt ▸ ht) (hpt' ▸ ht')
  case checks =>
    intro t d b ht
    rcases hplace ht with ⟨rfl, rfl⟩ | ⟨-, ht⟩
    · exact hp.2
    · exact hl.check t d b ht
  case disposes =>
    intro t d ht
    rcases hplace ht with ⟨rfl, rfl⟩ | ⟨-, ht⟩
    · exact hp.2
    · exact hl.dispose t d ht
  case woken =>
    intro t d b ht hret
    rcases hplace ht with ⟨rfl, rfl⟩ | ⟨-, ht⟩
    · exact absurd hret hp.2
    · exact hl.woken t d b ht hret

/-- A thread gets a return value: 0 if it has what it waits for. -/
theorem setRetval {v : ℤ} (hput : v = 0 → s.place c = .put → s.Settled c)
    (hget : v = 0 → ∀ d b, s.place c = .get d b → s.kept d ≠ none) : MboxLedger (s.setRetval c v) := by
  have hret : ∀ {t}, (s.setRetval c v).retval t = 0 → t = c ∧ v = 0 ∨ s.retval t = 0 := by
    intro t ht
    by_cases htc : t = c
    · subst htc
      exact .inl ⟨rfl, by simpa [MboxState.setRetval] using ht⟩
    · exact .inr (by simpa [MboxState.setRetval, htc] using ht)
  refine { hl with kept := fun d x h hx hh => { hl.kept d x h hx hh with }, done := fun t ht h0 => ?_,
                   woken := fun t d b ht h0 => ?_ }
  · rcases hret h0 with ⟨rfl, hv⟩ | h0
    · exact hput hv ht
    · exact hl.done t ht h0
  · rcases hret h0 with ⟨rfl, hv⟩ | h0
    · exact hget hv d b ht
    · exact hl.woken t d b ht h0

/-- A thread that is in no call sends a message. -/
theorem sends (hc : s.place c = .outside) : MboxLedger (s.sends c tx) := by
  have hheld : ∀ h, s.held h ≠ none → h ≠ c := by
    rintro h hh rfl
    simpa [hc] using hl.busy h hh
  have hset : ∀ h, h ≠ c → s.Settled h → (s.sends c tx).Settled h := by
    rintro h hh ⟨e, he, hmet, hsender, hnum, hsize⟩
    exact ⟨e, he, hmet, hsender, by simpa [MboxState.sends, hh] using hnum, by simpa [MboxState.sends, hh] using hsize⟩
  refine { hl with bound := fun x hx => ?_, rests := fun x hx hun => ?_, kept := fun d x h hx hh => ?_,
                   waker := fun t h ht => ?_, done := fun t ht hret => ?_ }
  · refine le_trans (hl.bound x hx) ?_
    simp only [MboxState.sends, update_apply]
    split <;> simp_all
  · obtain ⟨hx', hnum⟩ := hl.rests x hx hun
    exact ⟨hx', by simpa [MboxState.sends, hheld _ hx'] using hnum⟩
  · have hk := hl.kept d x h hx hh
    exact { hk with number := by simpa [MboxState.sends, hheld h (by simp [hk.held])] using hk.number }
  · obtain ⟨hh, hsettled⟩ := hl.waker t h ht
    exact ⟨hh, hset h (hheld h (by simp [hh])) hsettled⟩
  · refine hset t ?_ (hl.done t ht hret)
    rintro rfl
    rw [show (s.sends t tx).place t = s.place t from rfl, hc] at ht
    simp at ht

theorem returns (hc : s.held c = none) {code : ℤ} (hcode : code = 0 → s.Settled c) : MboxLedger (s.returns c code) := by
  have hout := hl.setPlace hc (p := .outside) trivial
  refine { hout with kept := fun d x h hx hh => { hl.kept d x h hx hh with }, returned := fun r hr h0 => ?_ }
  rcases mem_append.1 hr with hr | hr
  · exact hl.returned r hr h0
  · rw [mem_singleton.1 hr] at h0 ⊢
    exact hcode h0

/-- Nobody uses the descriptor. -/
theorem asks (hd : s.Free d) : MboxLedger (s.asks d rx) := by
  have hkept : ∀ t d', (s.place t).desc? = some d' → s.kept d' ≠ none → (s.asks d rx).kept d' ≠ none := by
    intro t d' ht hk
    have hne : d' ≠ d := fun h => hd t (h ▸ ht)
    simpa [MboxState.asks, hne] using hk
  refine { hl with kept := fun d' x h hx hh => ?_, check := fun t d' b ht => ?_, dispose := fun t d' ht => ?_,
                   woken := fun t d' b ht h0 => ?_ }
  · by_cases hdd : d' = d
    · simp [MboxState.asks, hdd] at hx
    · simp only [MboxState.asks, update_of_ne hdd] at hx hh
      have hk := hl.kept d' x h hx hh
      have hrx : (s.asks d rx).rxMsg d' = s.rxMsg d' := update_of_ne hdd _ _
      have hdis : (s.asks d rx).discarded d' = s.discarded d' := update_of_ne hdd _ _
      exact { hk with size := by rw [hrx, hdis]; exact hk.size }
  · exact hkept t d' (congrArg MboxPlace.desc? ht) (hl.check t d' b ht)
  · exact hkept t d' (congrArg MboxPlace.desc? ht) (hl.dispose t d' ht)
  · exact hkept t d' (congrArg MboxPlace.desc? ht) (hl.woken t d' b ht h0)

/-- The data of a message are discarded. -/
theorem discards : MboxLedger { s.setRxSize d 0 with discarded := update s.discarded d true } := by
  refine { hl with kept := fun d' x h hx hh => ?_ }
  by_cases hdd : d' = d
  · subst hdd
    have hk := hl.kept d' x h hx (by simpa [MboxState.setRxSize] using hh)
    exact { hk with size := by simp [MboxState.setRxSize] }
  · have hrx : (s.setRxSize d 0).rxMsg d' = s.rxMsg d' := update_of_ne hdd _ _
    have hk := hl.kept d' x h hx (hrx ▸ hh)
    exact { hk with size := by simp only [hrx, update_of_ne hdd]; exact hk.size }

theorem takesBlock : MboxLedger { s with rxMsg := update s.rxMsg d { s.rxMsg d with txBlock := none } } := by
  have hsame : ∀ d', (update s.rxMsg d { s.rxMsg d with txBlock := none } d').syncingThread =
    (s.rxMsg d').syncingThread ∧
      (update s.rxMsg d { s.rxMsg d with txBlock := none } d').size = (s.rxMsg d').size := by
    intro d'
    by_cases hdd : d' = d
    · simp [hdd]
    · simp [hdd]
  refine { hl with kept := fun d' x h hx hh => ?_ }
  have hk := hl.kept d' x h hx ((hsame d').1 ▸ hh)
  exact { hk with size := by rw [(hsame d').2]; exact hk.size }

/-! ### The end of a rendezvous -/

/-- A message has been disposed of at most once. -/
theorem met_eq {x x' : Rendezvous N} (hx : x ∈ s.met) (hx' : x' ∈ s.met) (hs : x.sender = x'.sender)
    (hn : x.number = x'.number) : x = x' := by
  refine inj_on_of_nodup_map hl.once hx hx' ?_
  rw [hs, hn]

theorem not_settled (hk : s.Keeps d x h) : ¬ s.Settled h := by
  rintro ⟨e, he, hmet, hsender, hnum, -⟩
  exact hk.undisposed e he (hl.met_eq hmet hk.met (hsender.trans hk.sender.symm) (hnum.trans hk.number.symm))

end

/-- The message of `h` in the descriptor `d` is disposed of. -/
def gone (s : MboxState N W σ) (d : Nat) (h : Fin N) : MboxState N W σ :=
  { s with
    rxMsg := update s.rxMsg d { s.rxMsg d with txBlock := none, syncingThread := none }
    txMsg := update s.txMsg h { s.txMsg h with size := (s.rxMsg d).size } }.disposes d h

theorem gone_disposed (hx : s.kept d = some x) :
    (gone s d h).disposed = s.disposed ++ [⟨x, s.discarded d, (s.rxMsg d).size, (s.rxMsg d).size⟩] := by
  simp [gone, MboxState.disposes, hx]

theorem gone_settled (hk : s.Keeps d x h) (hx : s.kept d = some x) : (gone s d h).Settled h := by
  refine ⟨⟨x, s.discarded d, (s.rxMsg d).size, (s.rxMsg d).size⟩, ?_, hk.met, hk.sender, hk.number, ?_⟩
  · rw [gone_disposed hx]
    simp
  · simp [gone, MboxState.disposes]

theorem gone_ledger (hl : MboxLedger s) (hk : s.Keeps d x h) (hx : s.kept d = some x) : MboxLedger (gone s d h) := by
  have hset : ∀ g, g ≠ h → s.Settled g → (gone s d h).Settled g := by
    rintro g hg ⟨e, he, hmet, hsender, hnum, hsize⟩
    refine ⟨e, by rw [gone_disposed hx]; exact mem_append_left _ he, hmet, hsender, hnum, ?_⟩
    rw [hsize]
    simp [gone, MboxState.disposes, hg]
  have hmem : ∀ e ∈ s.disposed, e ∈ (gone s d h).disposed := fun e he => by
    rw [gone_disposed hx]
    exact mem_append_left _ he
  refine { hl with rests := fun x' hx' hun => hl.rests x' hx' fun e he => hun e (hmem e he), kept := ?kept,
                   waker := ?waker, done := ?done,
                   disposed := ?disposed, returned := ?returned }
  case kept =>
    intro d' x' g hx' hg
    by_cases hdd : d' = d
    · simp [gone, MboxState.disposes, hdd] at hg
    · have hrx : (gone s d h).rxMsg d' = s.rxMsg d' := update_of_ne hdd _ _
      rw [hrx] at hg
      have hk' := hl.kept d' x' g hx' hg
      refine { hk' with undisposed := fun e he heq => ?_, size := by rw [hrx]; exact hk'.size }
      rw [gone_disposed hx] at he
      rcases mem_append.1 he with he | he
      · exact hk'.undisposed e he heq
      · -- one message is not in two descriptors
        rw [mem_singleton.1 he] at heq
        have hgh : g = h := hk'.sender.symm.trans ((congrArg _ heq.symm).trans hk.sender)
        have hheld := hk'.held
        rw [hgh, hk.held] at hheld
        exact hdd (by simpa using hheld.symm)
  case waker =>
    intro t g ht
    obtain ⟨hg, hsettled⟩ := hl.waker t g ht
    refine ⟨hg, hset g ?_ hsettled⟩
    rintro rfl
    rw [hk.held] at hg
    simp at hg
  case done =>
    intro t ht hret
    have hsettled := hl.done t ht hret
    refine hset t ?_ hsettled
    rintro rfl
    exact hl.not_settled hk hsettled
  case disposed =>
    intro e he
    rw [gone_disposed hx] at he
    rcases mem_append.1 he with he | he
    · exact hl.disposed e he
    · rw [mem_singleton.1 he]
      exact ⟨hk.met, rfl, hk.size⟩
  case returned =>
    intro r hr hcode
    obtain ⟨e, he, hrest⟩ := hl.returned r hr hcode
    exact ⟨e, hmem e he, hrest⟩

/-- A settled sender is woken by another one, or not at all any more. -/
theorem setHeld (hl : MboxLedger s) (hset : s.Settled h)
    (hkept : ∀ d x, s.kept d = some x → (s.rxMsg d).syncingThread ≠ some h)
    (hwake : ∀ t, s.place t ≠ .wake h) (hput : s.place h = .put) (holder : Option (Holder N)) :
    MboxLedger { s with held := update s.held h holder } := by
  refine { hl with rests := ?rests, kept := ?kept, waker := ?waker, busy := ?busy }
  case rests =>
    intro x hx hun
    obtain ⟨hheld, hnum⟩ := hl.rests x hx hun
    refine ⟨?_, hnum⟩
    have hne : x.sender ≠ h := by
      intro hxh
      obtain ⟨e, he, hmet, hsender, hnum', -⟩ := hset
      refine hun e he (hl.met_eq hmet hx (hsender.trans hxh.symm) ?_)
      rw [hnum', ← hnum, hxh]
    simpa [hne] using hheld
  case kept =>
    intro d x g hx hg
    have hk := hl.kept d x g hx hg
    have hne : g ≠ h := fun hgh => hkept d x hx (hgh ▸ hg)
    exact { hk with held := by simpa [hne] using hk.held }
  case waker =>
    intro t g ht
    obtain ⟨hg, hsettled⟩ := hl.waker t g ht
    have hne : g ≠ h := fun hgh => hwake t (hgh ▸ ht)
    exact ⟨by simpa [hne] using hg, hsettled⟩
  case busy =>
    intro g hg
    by_cases hgh : g = h
    · exact hgh ▸ hput
    · exact hl.busy g (by simpa [hgh] using hg)

theorem withSched (hl : MboxLedger s) (sched : Sched N W σ) : MboxLedger { s with sched := sched } :=
  { hl with kept := fun d x h hx hh => { hl.kept d x h hx hh with } }

/-- **`mbox_message_dispose` (mailbox.c:176)** by a thread that uses the descriptor. -/
theorem dispose_ledger (hl : MboxLedger s) (hc : s.held s.sched.current = none)
    (hp : s.place s.sched.current = .dispose d) :
    MboxLedger (mboxMessageDispose s d) := by
  unfold mboxMessageDispose
  cases hsync : (s.rxMsg d).syncingThread with
  | none => exact hl.setPlace hc trivial
  | some h =>
    obtain ⟨x, hx⟩ := Option.ne_none_iff_exists'.1 (hl.dispose _ d hp)
    have hk := hl.kept d x h hx hsync
    have hl' := hl.gone_ledger hk hx
    have hset := gone_settled hk hx
    have hput : s.place h = .put := hl.busy h (by simp [hk.held])
    have hch : s.sched.current ≠ h := by
      intro hch
      rw [hch, hput] at hp
      simp at hp
    -- nothing else refers to the sender
    have hkept : ∀ d' x', (gone s d h).kept d' = some x' → ((gone s d h).rxMsg d').syncingThread ≠ some h := by
      intro d' x' hx' hs
      have heq := (hl'.kept d' x' h hx' hs).held
      rw [show (gone s d h).held h = s.held h from rfl, hk.held] at heq
      obtain rfl : d = d' := by simpa using heq
      simp [gone, MboxState.disposes] at hs
    have hwake : ∀ t, (gone s d h).place t ≠ .wake h := by
      intro t ht
      have heq := (hl.waker t h ht).1
      rw [hk.held] at heq
      simp at heq
    simp only
    split
    · have hfree := hl'.setHeld hset hkept hwake hput none
      have hout := hfree.setPlace (c := h) (p := .outside) (by simp) trivial
      refine hout.setPlace (p := .outside) ?_ trivial
      simpa [gone, MboxState.disposes, MboxState.setPlace, hch] using hc
    · have hheld := hl'.setHeld hset hkept hwake hput (some (.waker s.sched.current))
      refine hheld.setPlace (p := .wake h) ?_ ⟨by simp, hset⟩
      simpa [gone, MboxState.disposes, hch] using hc

/-- **The end of `mbox_message_dispose` (mailbox.c:216)** -/
theorem wake_ledger (hl : MboxLedger s) (hc : s.held c = none) (hp : s.place c = .wake h) :
    MboxLedger { (s.setRetval h 0).setPlace c .outside with held := update s.held h none } := by
  obtain ⟨hheld, hset⟩ := hl.waker c h hp
  have hput : s.place h = .put := hl.busy h (by simp [hheld])
  have hch : h ≠ c := by
    rintro rfl
    rw [hput] at hp
    simp at hp
  have hl1 := hl.setRetval (c := h) (v := 0) (fun _ _ => hset) fun _ d b hg => by simp [hput] at hg
  have hl2 := hl1.setPlace (c := c) (p := .outside) hc trivial
  refine hl2.setHeld hset (fun d x hx hs => ?_) (fun t ht => ?_) ?_ none
  · have hk := (hl.kept d x h hx hs).held
    rw [hheld] at hk
    simp at hk
  · by_cases htc : t = c
    · simp [MboxState.setPlace, htc] at ht
    · have hh := (hl.waker t h (by simpa [MboxState.setPlace, MboxState.setRetval, htc] using ht)).1
      rw [hheld] at hh
      exact htc (by simpa using hh.symm)
  · simpa [MboxState.setPlace, MboxState.setRetval, hch] using hput

end MboxLedger

/-! ## Who waits -/

/-- An offer concerns only the sender. -/
theorem MboxState.Offering.congr {s' : MboxState N W σ} (h : s.Offering y) (hplace : s'.place y = s.place y)
    (hretval : s'.retval y = s.retval y)
    (hheld : s'.held y = s.held y) (htx : s'.txMsg y = s.txMsg y) (hsent : s'.sent y = s.sent y)
    (hputs : s'.puts y = s.puts y) (hmet : ∀ x ∈ s'.met, x.sender = y → x ∈ s.met) : s'.Offering y where
  place := hplace.trans h.place
  retval := hretval ▸ h.retval
  held := hheld.trans h.held
  unmet x hx hxy := hputs ▸ h.unmet x (hmet x hx hxy) hxy
  txMsg := by rw [htx, hsent, h.txMsg]
  syncing := by rw [hsent, h.syncing]

theorem MboxState.Asking.congr {s' : MboxState N W σ} (h : s.Asking y) (hplace : s'.place y = s.place y)
    (hretval : s'.retval y = s.retval y)
    (hdesc : s'.rxDesc y = s.rxDesc y) (hkept : s'.kept (s.rxDesc y) = s.kept (s.rxDesc y))
    (hdis : s'.discarded (s.rxDesc y) = s.discarded (s.rxDesc y)) (hrx : s'.rxMsg (s.rxDesc y) = s.rxMsg (s.rxDesc y))
    (hasked : s'.asked (s.rxDesc y) = s.asked (s.rxDesc y)) : s'.Asking y where
  place := by
    obtain ⟨b, hb⟩ := h.place
    exact ⟨b, by rw [hplace, hdesc, hb]⟩
  retval := hretval ▸ h.retval
  kept := by rw [hdesc, hkept, h.kept]
  discarded := by rw [hdesc, hdis, h.discarded]
  rxMsg := by rw [hdesc, hrx, hasked, h.rxMsg]

end Zephyr
