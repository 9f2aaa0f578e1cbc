import Zephyr.Mempool.Wait
/-!
# Runs of threads that wait for blocks

Under every lock the pool keeps its invariant, with the blocks that somebody holds in the middle of a call in use.
Levels that a thread has found empty stay empty until it waits, since whoever adds a block meets `Unraced`; and
while threads wait, only `k_mem_pool_free_id` adds one, and wakes them all.
-/
namespace Zephyr

open Ring Buddy PoolDef Sched Function List Option

variable {N : Nat} {W σ : Type} [DecidableEq W] {Q : Queues N W σ} {H : Q.Lawful} {cfg : Config N} {waitQ : W}
    {g : PoolDef}

/-! ## Levels -/

section levels

variable {p p' : Pool} {F F' : Nat → List Nat} {B B' : Set Block} {used used' : List Block} {x : Block} {l i j : Nat}

theorem lsizes_succ_le (g : PoolDef) (i : Nat) : g.lsizes (i + 1) ≤ g.lsizes i := by
  rw [PoolDef.lsizes, align4]
  omega

theorem lsizes_antitone (g : PoolDef) : Antitone g.lsizes := antitone_nat_of_succ_le (lsizes_succ_le g)

theorem PoolInv.levelEmpty_iff (h : PoolInv g p F B used) (hl : l < g.nLevels) : levelEmpty p l = true ↔ F l = [] := by
  rw [levelEmpty, sysDlistIsEmpty_iff (h.rings.ring ⟨l, hl⟩), map_eq_nil_iff]

/-- A level that gets no block stays empty. -/
theorem PoolInv.stays_empty (h : PoolInv g p F B used) (h' : PoolInv g p' F' B' used') (hl : l < g.nLevels)
    (hB : ∀ y ∈ B', y.1 = l → y ∈ B) (he : levelEmpty p l = true) : levelEmpty p' l = true := by
  rw [h.levelEmpty_iff hl] at he
  rw [h'.levelEmpty_iff hl, eq_nil_iff_forall_not_mem]
  intro b hb
  obtain ⟨hmem, hbuf⟩ := (h'.lists (l, b) hl).1 hb
  have := (h.lists (l, b) hl).2 ⟨hB _ hmem rfl, hbuf⟩
  rw [he] at this
  cases this

theorem PoolInv.not_mem (h : PoolInv g p F B (x :: used)) : x ∉ used :=
    fun hx => (rel_of_pairwise_cons h.tiling.inUse hx).ne rfl

/-- **`block_alloc` (mempool.c:144)** of a level that has no free block any more. -/
theorem PoolInv.blockAlloc_empty (h : PoolInv g p F B used) (hl : l < g.nLevels) (hF : F l = []) (lsz : Nat) :
    Zephyr.blockAlloc p l lsz = some (p, none) := by
  have hring := h.rings.ring ⟨l, hl⟩
  simp only [hF, map_nil] at hring
  unfold Zephyr.blockAlloc
  rw [sysDlistGet_nil hring]

end levels

omit [DecidableEq W] in
/-- `_unpend_all` ends when the queue has no first thread. -/
theorem unpendAll_best {fuel : Nat} :
    ∀ {s t : Sched N W σ}, unpendAll Q cfg s waitQ fuel = some t → Q.best t.queues (.waitq waitQ) = some none := by
  induction fuel with
  | zero => intro s t h; cases h
  | succ fuel ih =>
    intro s t h
    unfold unpendAll at h
    split at h
    · cases h
    · rename_i hbest
      cases h
      exact hbest
    · obtain ⟨s1, -, h⟩ := bind_eq_some_iff.1 h
      obtain ⟨s2, -, h⟩ := bind_eq_some_iff.1 h
      exact ih h

/-! ## Who holds which block -/

namespace PoolPlace

/-- The block that a call holds in the middle. -/
def holds (g : PoolDef) : PoolPlace → Option Block
  | .toBreak _ data fromL _ => some (fromL, blockNum data (g.lsizes fromL))
  | .freeing level bn => some (level, bn)
  | _ => none

/-- The place is in `k_mem_pool_free_id`. -/
def frees : PoolPlace → Bool
  | .freeing _ _ | .toWake => true
  | _ => false

def Fits (g : PoolDef) : PoolPlace → Prop
  | .looking _ _ i allocL freeL => i ≤ g.nLevels ∧ (∀ a ∈ allocL, a < i) ∧ ∀ f ∈ freeL, ∃ a ∈ allocL, f ≤ a
  | .toTake _ _ allocL freeL => freeL ≤ allocL ∧ allocL < g.nLevels
  | .toBreak _ data fromL allocL => fromL < allocL ∧ allocL < g.nLevels ∧
      data = blockPtr (g.lsizes fromL) (blockNum data (g.lsizes fromL))
  | _ => True

end PoolPlace

/-- The blocks that calls hold are among the given ones, and no two calls hold the same. -/
structure Carried (g : PoolDef) (place : Fin N ⊕ Nat → PoolPlace) (rest : List Block) : Prop where
  mem : ∀ {c x}, (place c).holds g = some x → x ∈ rest
  inj : ∀ {c c' x}, (place c).holds g = some x → (place c').holds g = some x → c = c'

namespace Carried

variable {place : Fin N ⊕ Nat → PoolPlace} {rest : List Block} {c : Fin N ⊕ Nat} {p : PoolPlace} {x y : Block}

theorem skip (h : Carried g place rest) (hp : p.holds g = none) : Carried g (update place c p) rest := by
  have hne : ∀ {d z}, (update place c p d).holds g = some z → (place d).holds g = some z := by
    intro d z hd
    by_cases hdc : d = c
    · subst hdc
      rw [update_self, hp] at hd
      cases hd
    · rwa [update_of_ne hdc] at hd
  exact ⟨fun hd => h.mem (hne hd), fun hd hd' => h.inj (hne hd) (hne hd')⟩

/-- The call has no block any more. -/
theorem drop (h : Carried g place rest) (hc : (place c).holds g = some x) (hp : p.holds g = none) :
    Carried g (update place c p) (rest.erase x) := by
  refine ⟨fun {d z} hd => ?_, (h.skip hp).inj⟩
  have hdc : d ≠ c := by
    rintro rfl
    rw [update_self, hp] at hd
    cases hd
  rw [update_of_ne hdc] at hd
  refine (mem_erase_of_ne fun e => hdc ?_).2 (h.mem hd)
  exact h.inj hd (e ▸ hc)

/-- The call comes to have a block. -/
theorem take (h : Carried g place rest) (hp : p.holds g = some y) (hy : y ∉ rest) :
    Carried g (update place c p) (y :: rest) := by
  have hne : ∀ {d z}, (update place c p d).holds g = some z → d ≠ c → (place d).holds g = some z := by
    intro d z hd hdc
    rwa [update_of_ne hdc] at hd
  have hself : ∀ {z}, (update place c p c).holds g = some z → z = y := by
    intro z hz
    rw [update_self, hp] at hz
    exact (some.inj hz).symm
  refine ⟨fun {d z} hd => ?_, fun {d d' z} hd hd' => ?_⟩
  · by_cases hdc : d = c
    · subst hdc
      rw [hself hd]
      exact mem_cons_self
    · exact mem_cons_of_mem _ (h.mem (hne hd hdc))
  · by_cases hdc : d = c
    · by_cases hdc' : d' = c
      · rw [hdc, hdc']
      · subst hdc
        rw [hself hd] at hd'
        exact absurd (h.mem (hne hd' hdc')) hy
    · by_cases hdc' : d' = c
      · subst hdc'
        rw [hself hd'] at hd
        exact absurd (h.mem (hne hd hdc)) hy
      · exact h.inj (hne hd hdc) (hne hd' hdc')

/-- The call has another block than before. -/
theorem swap (h : Carried g place rest) (hc : (place c).holds g = some x) (hp : p.holds g = some y)
    (hy : y ∉ rest.erase x) :
    Carried g (update place c p) (y :: rest.erase x) := by
  have hdrop : Carried g (update place c .outside) (rest.erase x) := h.drop hc rfl
  simpa using hdrop.take (c := c) hp hy

end Carried

/-! ## What stays true -/

structure WaitInv (H : Q.Lawful) (cfg : Config N) (waitQ : W) (g : PoolDef) (s : PoolWait N W σ) : Prop where
  sched : ∃ L, SchedInv H cfg s.sched L
  pool : ∃ F B rest, PoolInv g s.pool F B (s.live.map LiveBlock.toBlock ++ rest) ∧ Carried g s.place rest
  fits : ∀ c, (s.place c).Fits g
  idle : s.place (.inl cfg.idle) = .outside
  isr : ∀ k, s.place (.inr k) = .outside ∨ (s.place (.inr k)).frees = true
  calls : ∀ c, c ∈ s.calls ↔ (s.place c).frees = true
  waiting : ∀ t, s.sched.WaitsOn waitQ t → ∃ size, s.place (.inl t) = .pended size
  /-- What a thread has found empty is empty. -/
  saw : ∀ {t l}, (s.place (.inl t)).sawEmpty g l = true → levelEmpty s.pool l = true
  woken : ∀ {t size}, s.place (.inl t) = .pended size → s.sched.WaitsOn waitQ t →
    s.calls ≠ [] ∨ ∀ l < g.nLevels, size ≤ g.lsizes l → levelEmpty s.pool l = true

/-- A level that can get a free block has been found empty by nobody, and whoever waits for it will be woken. -/
def PoolWait.MayGain (waitQ : W) (g : PoolDef) (s : PoolWait N W σ) (pool' : Pool)
    (calls' : List (Fin N ⊕ Nat)) : Prop :=
  ∀ l < g.nLevels, (levelEmpty s.pool l = true → levelEmpty pool' l = true) ∨
    (∀ t, (s.place (.inl t)).sawEmpty g l = false) ∧ ∀ t, (s.place (.inl t)).servedBy g l = true →
    s.sched.WaitsOn waitQ t → calls' ≠ []

theorem PoolPlace.sawEmpty_lt {p : PoolPlace} {l : Nat} (h : p.sawEmpty g l = true) (hfits : p.Fits g) :
    l < g.nLevels := by
  cases p with
  | looking size again i allocL freeL =>
    simp only [PoolPlace.sawEmpty, decide_eq_true_eq] at h
    exact h.1.trans_le hfits.1
  | toPend size =>
    simp only [PoolPlace.sawEmpty, decide_eq_true_eq] at h
    exact h.1
  | _ => simp [PoolPlace.sawEmpty] at h

variable {size allocL : Nat} {s' s : PoolWait N W σ} {op : PoolWaitOp N W}

namespace WaitInv

variable {s : PoolWait N W σ} {t : Fin N} {p : PoolPlace} {pool' : Pool} {live' : List LiveBlock}
    {calls' : List (Fin N ⊕ Nat)}

section

variable (h : WaitInv H cfg waitQ g s)

include h

theorem noneLost : s.NoneLost waitQ g :=
  fun hcalls _ _ hp hw => (h.woken hp hw).resolve_left fun hne => hne hcalls

theorem me_ne_of_waits (ht : s.sched.WaitsOn waitQ t) : .inl t ≠ s.me := by
  obtain ⟨L, hL⟩ := h.sched
  unfold PoolWait.me
  split
  · rintro ⟨⟩
    exact hL.current_not_waits (by assumption) ht
  · simp

theorem me_ne_idle (hp : s.here ≠ .outside) : s.me ≠ .inl cfg.idle := by
  intro e
  rw [PoolWait.here, e] at hp
  exact hp h.idle

/-- Interrupts do nothing but free. -/
theorem me_thread (hp : s.here ≠ .outside) (hf : s.here.frees = false) :
    s.sched.nested = 0 ∧ s.me = .inl s.sched.current := by
  by_cases hn : s.sched.nested = 0
  · exact ⟨hn, if_pos hn⟩
  · have hme : s.me = .inr s.sched.nested := if_neg hn
    rw [PoolWait.here, hme] at hp hf
    rcases h.isr s.sched.nested with ho | hfr
    · exact absurd ho hp
    · rw [hf] at hfr
      cases hfr

/-- The pool with the block that the call holds in front. -/
theorem held {x : Block} (hx : s.here.holds g = some x) :
    ∃ F B rest, PoolInv g s.pool F B (x :: (s.live.map LiveBlock.toBlock ++ rest.erase x)) ∧
    Carried g s.place rest := by
  obtain ⟨F, B, rest, hinv, hcar⟩ := h.pool
  exact ⟨F, B, rest, hinv.perm (perm_middle.symm.trans ((perm_cons_erase (hcar.mem hx)).symm.append_left _)), hcar⟩

/-- A step that works on the pool or wakes threads. -/
theorem poolStep {sched' : Sched N W σ} (hsched : ∃ L, SchedInv H cfg sched' L)
    (hoff : ∀ {t}, sched'.WaitsOn waitQ t → s.sched.WaitsOn waitQ t)
    (hpool : ∃ F B rest, PoolInv g pool' F B (live'.map LiveBlock.toBlock ++ rest) ∧
      Carried g (update s.place s.me p) rest)
    (hfits : p.Fits g) (hidle : s.me ≠ .inl cfg.idle) (hisr : ∀ k, s.me = .inr k → p = .outside ∨ p.frees = true)
    (hcalls : ∀ c, c ∈ calls' ↔ (update s.place s.me p c).frees = true)
    (hmore : ∀ {t}, sched'.WaitsOn waitQ t → s.calls ≠ [] → calls' ≠ [])
    (hgain : s.MayGain waitQ g pool' calls') (hself : ∀ l, p.sawEmpty g l = true → levelEmpty pool' l = true) :
    WaitInv H cfg waitQ g { s with
      sched := sched', pool := pool', place := update s.place s.me p, live := live', calls := calls' } where
  sched := hsched
  pool := hpool
  fits c := by
    by_cases hc : c = s.me
    · subst hc
      simpa using hfits
    · simpa [hc] using h.fits c
  idle := by simpa [Ne.symm hidle] using h.idle
  isr k := by
    by_cases hc : .inr k = s.me
    · rw [hc]
      simpa using hisr k hc.symm
    · simpa [hc] using h.isr k
  calls := hcalls
  waiting t ht := by simpa [h.me_ne_of_waits (hoff ht)] using h.waiting t (hoff ht)
  saw {t l} hs := by
    by_cases hc : .inl t = s.me
    · rw [hc] at hs
      simp only [update_self] at hs
      exact hself l hs
    · simp only [update_of_ne hc] at hs
      rcases hgain l (PoolPlace.sawEmpty_lt hs (h.fits _)) with hkeep | ⟨hsaw, -⟩
      · exact hkeep (h.saw hs)
      · rw [hsaw t] at hs
        cases hs
  woken {t size} hp ht := by
    have hp' : s.place (.inl t) = .pended size := by simpa [h.me_ne_of_waits (hoff ht)] using hp
    by_cases hc : calls' = []
    · have hall := (h.woken hp' (hoff ht)).resolve_left fun hne => hmore ht hne hc
      refine .inr fun l hl hsize => (hgain l hl).resolve_right (fun hg => ?_) (hall l hl hsize)
      exact hg.2 t (by simp [hp', PoolPlace.servedBy, hsize]) (hoff ht) hc
    · exact .inl hc

/-- A step between places that are not in `k_mem_pool_free_id`. -/
theorem calls_iff (hf : s.here.frees = p.frees) (c : Fin N ⊕ Nat) :
    c ∈ s.calls ↔ (update s.place s.me p c).frees = true := by
  by_cases hc : c = s.me
  · subst hc
    rw [update_self, ← hf]
    exact h.calls s.me
  · rw [update_of_ne hc]
    exact h.calls c

/-- A step that only reads the pool. -/
theorem readStep (hfits : p.Fits g) (hidle : s.me ≠ .inl cfg.idle) (hisr : ∀ k, s.me ≠ .inr k)
    (hf : s.here.frees = false ∧ p.frees = false) (hold : p.holds g = none)
    (hself : ∀ l, p.sawEmpty g l = true → levelEmpty s.pool l = true) :
    WaitInv H cfg waitQ g (s.move p) := by
  obtain ⟨F, B, rest, hinv, hcar⟩ := h.pool
  exact h.poolStep h.sched id ⟨F, B, rest, hinv, hcar.skip hold⟩ hfits hidle (fun k hk => absurd hk (hisr k))
    (h.calls_iff (hf.1.trans hf.2.symm)) (fun _ => id) (fun _ _ => .inl id) hself

/-! ## Looking for a block -/

/-- `k_mem_pool_alloc` begins, or begins anew. -/
theorem lookAnew (hidle : s.me ≠ .inl cfg.idle) (hisr : ∀ k, s.me ≠ .inr k) (hf : s.here.frees = false) (size : Nat)
    (again : Bool) : WaitInv H cfg waitQ g (s.move (.looking size again 0 none none)) :=
  h.readStep (by simp [PoolPlace.Fits]) hidle hisr ⟨hf, rfl⟩ rfl fun _ => nofun

/-- **A round of the walk down the levels (mempool.c:238-256)** -/
theorem look_inv {i : Nat} {again : Bool} {allocL freeL : Option Nat}
    (hp : s.here = .looking size again i allocL freeL) :
    WaitInv H cfg waitQ g (s.look g size again i allocL freeL) := by
  have hne : s.here ≠ .outside := by simp [hp]
  have hf : s.here.frees = false := by simp [hp, PoolPlace.frees]
  obtain ⟨-, hme⟩ := h.me_thread hne hf
  have hisr : ∀ k, s.me ≠ .inr k := by simp [hme]
  obtain ⟨hi, ha, hfl⟩ : PoolPlace.Fits g (.looking size again i allocL freeL) := hp ▸ h.fits s.me
  have hsaw : ∀ l, l < i → freeL = none → levelEmpty s.pool l = true := by
    intro l hl hnone
    refine h.saw (t := s.sched.current) ?_
    rw [← hme]
    show s.here.sawEmpty g l = true
    simp [hp, PoolPlace.sawEmpty, hl, hnone]
  unfold PoolWait.look
  split
  · rename_i hin
    refine h.readStep ⟨by omega, by simp, ?_⟩ (h.me_ne_idle hne) hisr ⟨hf, rfl⟩ rfl fun l hl => ?_
    · intro f hmem
      split at hmem
      · obtain ⟨a, ha', hfa⟩ := hfl f hmem
        exact ⟨i, rfl, hfa.trans (ha a ha').le⟩
      · cases hmem
        exact ⟨i, rfl, le_rfl⟩
    · simp only [PoolPlace.sawEmpty, decide_eq_true_eq] at hl
      obtain ⟨hlt, hnone⟩ := hl
      split at hnone
      · rename_i hempty
        rcases Nat.lt_succ_iff_lt_or_eq.1 hlt with hlt | rfl
        · exact hsaw l hlt hnone
        · exact hempty
      · cases hnone
  · rename_i hout
    -- there is no more level that could serve the request
    have hdone : ∀ l < g.nLevels, size ≤ g.lsizes l → l < i := by
      intro l hl hsize
      by_contra hli
      have := lsizes_antitone g (Nat.le_of_not_lt hli)
      exact hout ⟨by omega, by omega⟩
    have hpend : freeL = none → WaitInv H cfg waitQ g (s.move (.toPend size)) := by
      intro hnone
      refine h.readStep trivial (h.me_ne_idle hne) hisr ⟨hf, rfl⟩ rfl fun l hl => ?_
      simp only [PoolPlace.sawEmpty, decide_eq_true_eq] at hl
      exact hsaw l (hdone l hl.1 hl.2) hnone
    cases allocL with
    | none =>
      refine hpend (eq_none_iff_forall_not_mem.2 fun f hmem => ?_)
      obtain ⟨a, ha', -⟩ := hfl f hmem
      cases ha'
    | some a =>
      cases freeL with
      | none => exact hpend rfl
      | some f =>
        obtain ⟨a', ha', hfa⟩ := hfl f rfl
        cases ha'
        have := ha a rfl
        exact h.readStep ⟨hfa, by omega⟩ (h.me_ne_idle hne) hisr ⟨hf, rfl⟩ rfl fun _ => nofun

section blocks

variable (h4 : 4 ∣ g.maxsz) (he : g.EvenLevels)

/-- The block is broken once more, or the thread has it. -/
theorem breakLoop_inv {F' : Nat → List Nat} {B' : Set Block} {rest' : List Block} {data fromL : Nat}
    (hinv : PoolInv g pool' F' B' ((fromL, blockNum data (g.lsizes fromL)) :: (s.live.map LiveBlock.toBlock ++ rest')))
    (hcar : Carried g (update s.place s.me .outside) rest')
    (hdata : data = blockPtr (g.lsizes fromL) (blockNum data (g.lsizes fromL)))
    (hle : fromL ≤ allocL) (ha : allocL < g.nLevels) (hne : s.here ≠ .outside) (hf : s.here.frees = false)
    (hgain : s.MayGain waitQ g pool' s.calls) :
    WaitInv H cfg waitQ g ({ s with pool := pool' }.breakLoop g size data fromL allocL) := by
  obtain ⟨-, hme⟩ := h.me_thread hne hf
  have hisr : ∀ k p, s.me = .inr k → p = PoolPlace.outside ∨ p.frees = true := by simp [hme]
  unfold PoolWait.breakLoop
  split
  · rename_i hlt
    have hnew : (fromL, blockNum data (g.lsizes fromL)) ∉ rest' := fun hm => hinv.not_mem (mem_append_right _ hm)
    have hcar' : Carried g (update s.place s.me (.toBreak size data fromL allocL))
      ((fromL, blockNum data (g.lsizes fromL)) :: rest') := by
      simpa using hcar.take (c := s.me) (p := .toBreak size data fromL allocL) rfl hnew
    exact h.poolStep h.sched id ⟨F', B', _, hinv.perm perm_middle, hcar'⟩ ⟨hlt, ha, hdata⟩ (h.me_ne_idle hne)
      (fun k => hisr k _)
      (h.calls_iff hf) (fun _ => id) hgain fun _ => nofun
  · obtain rfl : fromL = allocL := by omega
    exact h.poolStep h.sched id ⟨F', B', rest', hinv, hcar⟩ trivial (h.me_ne_idle hne) (fun k => hisr k _)
      (h.calls_iff hf) (fun _ => id) hgain
      fun _ => nofun

include h4 he

/-- **`block_alloc` in `_sys_mem_pool_block_alloc` (mempool.c:259)** -/
theorem take_inv {freeL : Nat} {again : Bool} (hp : s.here = .toTake size again allocL freeL)
    (hrace : s.Unraced waitQ g .goOn) (hs : s.take g size again allocL freeL = some s') : WaitInv H cfg waitQ g s' := by
  have hne : s.here ≠ .outside := by simp [hp]
  have hf : s.here.frees = false := by simp [hp, PoolPlace.frees]
  obtain ⟨-, hme⟩ := h.me_thread hne hf
  obtain ⟨hle, ha⟩ : PoolPlace.Fits g (.toTake size again allocL freeL) := hp ▸ h.fits s.me
  obtain ⟨F, B, rest, hinv, hcar⟩ := h.pool
  have hl : freeL < g.nLevels := by omega
  unfold PoolWait.take at hs
  cases hF : F freeL with
  | nil =>
    -- another thread was faster
    rw [hinv.blockAlloc_empty hl hF] at hs
    cases hs
    have hempty := (hinv.levelEmpty_iff hl).2 hF
    cases again with
    | true =>
      show WaitInv H cfg waitQ g (s.move (.toPend size))
      refine h.readStep trivial (h.me_ne_idle hne) (by simp [hme]) ⟨hf, rfl⟩ rfl fun l hl' => ?_
      simp only [PoolPlace.sawEmpty, decide_eq_true_eq] at hl'
      simp only [PoolWait.Unraced, hp, PoolWait.UnracedAt] at hrace
      exact hrace hempty l hl'.1 hl'.2
    | false => exact h.lookAnew (h.me_ne_idle hne) (by simp [hme]) hf size true
  | cons b C =>
    obtain ⟨p', F', halloc, -, hinv'⟩ := hinv.blockAlloc h4 he hl hF
    rw [halloc] at hs
    cases hs
    have hnum : blockNum (blockPtr (g.lsizes freeL) b) (g.lsizes freeL) = b := by
      have := eight_le_lsizes h4 hl
      exact Nat.mul_div_cancel_left b (by omega)
    exact h.breakLoop_inv (by rw [hnum]; exact hinv') (hcar.skip rfl) (by rw [hnum]) hle ha hne hf
      fun l hl' => .inl (hinv.stays_empty hinv' hl' fun y hy _ => hy.1)

/-- **`block_break` in `_sys_mem_pool_block_alloc` (mempool.c:275)** -/
theorem split_inv {data fromL : Nat} (hp : s.here = .toBreak size data fromL allocL)
    (hrace : s.Unraced waitQ g .goOn) (hs : s.split g size data fromL allocL = some s') : WaitInv H cfg waitQ g s' := by
  have hne : s.here ≠ .outside := by simp [hp]
  have hf : s.here.frees = false := by simp [hp, PoolPlace.frees]
  obtain ⟨hlt, ha, hdata⟩ : PoolPlace.Fits g (.toBreak size data fromL allocL) := hp ▸ h.fits s.me
  have hold : s.here.holds g = some (fromL, blockNum data (g.lsizes fromL)) := by
    rw [hp]
    rfl
  obtain ⟨F, B, rest, hinv1, hcar⟩ := h.held hold
  have hx := hinv1.usedRange _ mem_cons_self
  obtain ⟨p', F', B', hbreak, hinv2, hB⟩ := hinv1.blockBreak h4 he (by simp only; omega)
  simp only [← hdata] at hbreak
  unfold PoolWait.split at hs
  rw [hbreak] at hs
  cases hs
  -- the first part starts where the block does
  have hptr : blockPtr (g.lsizes (fromL + 1)) (4 * blockNum data (g.lsizes fromL)) = data :=
    (he.ptr_child hx (by simp only; omega)).trans hdata.symm
  have hnum : blockNum data (g.lsizes (fromL + 1)) = 4 * blockNum data (g.lsizes fromL) := by
    have := eight_le_lsizes h4 (show fromL + 1 < g.nLevels by omega)
    conv_lhs => rw [← hptr]
    exact Nat.mul_div_cancel_left _ (by omega)
  simp only [PoolWait.Unraced, hp, PoolWait.UnracedAt] at hrace
  refine h.breakLoop_inv (by rw [hnum]; exact hinv2) (hcar.drop hold rfl) (by rw [hnum, hptr]) hlt ha hne hf
    fun l hl => ?_
  by_cases hl' : l = fromL + 1
  · subst hl'
    exact .inr ⟨fun t => (hrace t).1, fun t => (hrace t).2⟩
  · exact .inl (hinv1.stays_empty hinv2 hl fun y hy hyl => (hB y hy).resolve_right fun e => hl' (hyl.symm.trans e))

/-! ## Giving a block back -/

omit h4 he in
theorem free_inv {block : LiveBlock} (hidle : s.me ≠ .inl cfg.idle) (hlive : block ∈ s.live) :
    WaitInv H cfg waitQ g { s.move (.freeing block.level block.block) with
      live := s.live.erase block, calls := s.me :: s.calls } := by
  obtain ⟨F, B, rest, hinv, hcar⟩ := h.pool
  have hperm : (block.toBlock :: ((s.live.erase block).map LiveBlock.toBlock ++ rest)).Perm
    (s.live.map LiveBlock.toBlock ++ rest) :=
    (((perm_cons_erase hlive).map LiveBlock.toBlock).symm).append_right rest
  have hinv1 := hinv.perm hperm
  have hnew : block.toBlock ∉ rest := fun hm => hinv1.not_mem (mem_append_right _ hm)
  refine h.poolStep h.sched id ⟨F, B, _, hinv1.perm perm_middle, hcar.take rfl hnew⟩ trivial hidle
    (fun _ _ => .inr rfl) (fun c => ?_)
    (fun _ _ => cons_ne_nil _ _) (fun _ _ => .inl id) fun _ => nofun
  by_cases hc : c = s.me
  · subst hc
    simp [PoolPlace.frees]
  · simpa [hc] using h.calls c

/-- **One lock of `block_free` (mempool.c:164-190)** -/
theorem give_inv {level bn : Nat} (hp : s.here = .freeing level bn) (hrace : s.Unraced waitQ g .goOn)
    (hs : s.give g level bn = some s') : WaitInv H cfg waitQ g s' := by
  have hne : s.here ≠ .outside := by simp [hp]
  have hf : s.here.frees = true := by simp [hp, PoolPlace.frees]
  have hold : s.here.holds g = some (level, bn) := by
    rw [hp]
    rfl
  obtain ⟨F, B, rest, hinv1, hcar⟩ := h.held hold
  unfold PoolWait.give at hs
  rcases hinv1.blockFreeSection h4 he with ⟨p', F', hsec, hinv2⟩ | ⟨p', F', B', l', rfl, hsec, hinv2, hB⟩
  · rw [hsec] at hs
    cases hs
    simp only [PoolWait.Unraced, hp, PoolWait.UnracedAt] at hrace
    -- whoever waits will be woken by this call
    have hcall : s.calls ≠ [] := ne_nil_of_mem ((h.calls s.me).2 hf)
    refine h.poolStep h.sched id ⟨F', _, _, hinv2, hcar.drop hold rfl⟩ trivial (h.me_ne_idle hne)
      (fun _ _ => .inr rfl) (h.calls_iff hf)
      (fun _ => id) (fun l hl => ?_) fun _ => nofun
    by_cases hl' : l = level
    · subst hl'
      exact .inr ⟨hrace (by rw [hsec]; rfl), fun _ _ _ => hcall⟩
    · refine .inl (hinv1.stays_empty hinv2 hl fun y hy hyl => (Set.mem_insert_iff.1 hy).resolve_left fun e => hl' ?_)
      rw [← hyl, e]
  · rw [hsec] at hs
    cases hs
    have hnew : (l', bn / 4) ∉ rest.erase (l' + 1, bn) := fun hm => hinv2.not_mem (mem_append_right _ hm)
    exact h.poolStep h.sched id ⟨F', B', _, hinv2.perm perm_middle, hcar.swap hold rfl hnew⟩ trivial (h.me_ne_idle hne)
      (fun _ _ => .inr rfl) (h.calls_iff hf) (fun _ => id)
      (fun l hl => .inl (hinv1.stays_empty hinv2 hl fun y hy _ => hB hy)) fun _ => nofun

end blocks

/-! ## Waiting and waking -/

/-- **`_pend_current_thread` in `k_mem_pool_alloc` (kernel/mempool.c:96)**: all that could serve the thread is
still empty. -/
theorem pend_inv (hp : s.here = .toPend size) (hs : s.pend Q cfg waitQ size = some s') : WaitInv H cfg waitQ g s' := by
  have hne : s.here ≠ .outside := by simp [hp]
  have hf : s.here.frees = false := by simp [hp, PoolPlace.frees]
  obtain ⟨hn, hme⟩ := h.me_thread hne hf
  have hidle := h.me_ne_idle hne
  have hi : s.sched.current ≠ cfg.idle := fun e => hidle (by rw [hme, e])
  obtain ⟨L, hL⟩ := h.sched
  obtain ⟨F, B, rest, hinv, hcar⟩ := h.pool
  obtain ⟨sched, hpend, hs⟩ := bind_eq_some_iff.1 hs
  cases hs
  obtain ⟨s2, L2, hs2, hinv2, -⟩ := pendCurrentThread_keeps hL hn hi waitQ true
  obtain rfl : s2 = sched := by simpa [hs2] using hpend
  have hoff : ∀ {t}, s2.WaitsOn waitQ t → t ≠ s.sched.current → s.sched.WaitsOn waitQ t := fun hw ht =>
    pendCurrentThread_staysOff (.inl ht) s2 hpend hw
  have hself : ∀ {q}, update s.place s.me q (.inl s.sched.current) = q := by simp [hme]
  have hother : ∀ {t q}, t ≠ s.sched.current → update s.place s.me q (.inl t) = s.place (.inl t) := by
    intro t q ht
    rw [hme]
    exact update_of_ne (fun e => ht (Sum.inl.inj e)) _ _
  have hmove := h.readStep (p := .pended size) trivial hidle (by simp [hme]) ⟨hf, rfl⟩ rfl fun _ => nofun
  refine ⟨⟨L2, hinv2⟩, hmove.pool, hmove.fits, hmove.idle, hmove.isr, hmove.calls, fun t ht => ?_, hmove.saw,
    fun {t size'} hpt ht => ?_⟩
  · by_cases htc : t = s.sched.current
    · subst htc
      exact ⟨size, hself⟩
    · obtain ⟨size', hsize'⟩ := h.waiting t (hoff ht htc)
      exact ⟨size', (hother htc).trans hsize'⟩
  · by_cases htc : t = s.sched.current
    · subst htc
      obtain rfl : size = size' := PoolPlace.pended.inj (hself.symm.trans hpt)
      refine .inr fun l hl hsize => h.saw (t := s.sched.current) ?_
      rw [← hme]
      show s.here.sawEmpty g l = true
      simp [hp, PoolPlace.sawEmpty, hl, hsize]
    · exact h.woken ((hother htc).symm.trans hpt) (hoff ht htc)

/-- **The end of `k_mem_pool_free_id` (kernel/mempool.c:119)**: nobody waits any more. -/
theorem wake_inv (hp : s.here = .toWake) (hs : s.wake Q cfg waitQ = some s') : WaitInv H cfg waitQ g s' := by
  have hne : s.here ≠ .outside := by simp [hp]
  have hidle := h.me_ne_idle hne
  obtain ⟨L, hL⟩ := h.sched
  obtain ⟨F, B, rest, hinv, hcar⟩ := h.pool
  obtain ⟨sched, hall, hs⟩ := bind_eq_some_iff.1 hs
  cases hs
  have hready : (SchedOp.readyAll waitQ).Legal H cfg s.sched := trivial
  obtain ⟨s2, L2, hs2, hinv2, -⟩ := exec_keeps hL hready trivial
  obtain rfl : s2 = sched := by simpa [hs2] using hall
  have hnone : ∀ t, ¬ s2.WaitsOn waitQ t := by
    intro t ht
    have hbest := unpendAll_best hall
    rw [H.best_spec hinv2.rep, some.injEq, List.head?_eq_none_iff] at hbest
    have hmem := hinv2.waitsOn_iff.1 ht
    rw [hbest] at hmem
    cases hmem
  generalize hlast : (if Q.best s.sched.queues (.waitq waitQ) ≠ some none then s2.reschedule else s2) = s3
  have hend : (∃ L, SchedInv H cfg s3 L) ∧ ∀ t, ¬ s3.WaitsOn waitQ t := by
    subst hlast
    split
    · have hagain : (SchedOp.reschedule : SchedOp N W).Legal H cfg s2 := trivial
      obtain ⟨s4, L4, hs4, hinv4, -⟩ := exec_keeps hinv2 hagain trivial
      cases hs4
      refine ⟨⟨L4, hinv4⟩, fun t ht => hnone t ?_⟩
      rwa [Sched.WaitsOn, reschedule_base] at ht
    · exact ⟨⟨L2, hinv2⟩, hnone⟩
  refine h.poolStep hend.1 (fun ht => absurd ht (hend.2 _)) ⟨F, B, rest, hinv, hcar.skip rfl⟩ trivial hidle
    (fun _ _ => .inl rfl) (fun c => ?_)
    (fun ht => absurd ht (hend.2 _)) (fun _ _ => .inl id) fun _ hsaw => absurd hsaw Bool.false_ne_true
  rw [mem_filter, decide_eq_true_eq]
  by_cases hc : c = s.me
  · simp [hc, PoolPlace.frees]
  · rw [update_of_ne hc, and_iff_left hc]
    exact h.calls c

theorem sched_inv {op : SchedOp N W} (hlegal : op.Legal H cfg s.sched) (havoid : op.Avoids waitQ)
    (hfine : ∀ L, SchedInv H cfg s.sched L → op.Fine H s.sched L) {sched : Sched N W σ}
    (hexec : op.exec Q cfg s.sched = some sched) :
    WaitInv H cfg waitQ g { s with sched := sched } := by
  obtain ⟨L, hL⟩ := h.sched
  obtain ⟨s2, L2, hs2, hinv, -⟩ := exec_keeps hL hlegal (hfine L hL)
  obtain rfl : s2 = sched := by simpa [hs2] using hexec
  have hoff : ∀ {t}, s2.WaitsOn waitQ t → s.sched.WaitsOn waitQ t := exec_staysOff havoid s2 hexec
  exact ⟨⟨L2, hinv⟩, h.pool, h.fits, h.idle, h.isr, h.calls, fun t ht => h.waiting t (hoff ht), h.saw,
    fun hp ht => h.woken hp (hoff ht)⟩

end

end WaitInv

/-! ## Runs -/

/-- What the queues need of the operations of the scheduler. -/
def PoolWaitOp.Fine (H : Q.Lawful) (cfg : Config N) (s : PoolWait N W σ) : PoolWaitOp N W → Prop
  | .sched op => ∀ L, SchedInv H cfg s.sched L → op.Fine H s.sched L
  | _ => True

/-- **One step.** -/
theorem WaitInv.exec (h4 : 4 ∣ g.maxsz) (he : g.EvenLevels) (h : WaitInv H cfg waitQ g s)
    (hlegal : s.Legal H cfg waitQ op) (hrace : s.Unraced waitQ g op) (hfine : op.Fine H cfg s)
    (hs : op.exec Q cfg waitQ g s = some s') :
    WaitInv H cfg waitQ g s' := by
  cases op with
  | sched op =>
    obtain ⟨sched, hexec, rfl⟩ := map_eq_some_iff.1 hs
    exact h.sched_inv hlegal.1 hlegal.2.2.1 hfine hexec
  | alloc size =>
    cases hs
    obtain ⟨hn, hi, hp⟩ := hlegal
    have hme : s.me = .inl s.sched.current := if_pos hn
    exact h.lookAnew (by rw [hme]; exact fun e => hi (Sum.inl.inj e)) (by simp [hme])
      (by simp [hp, PoolPlace.frees]) size false
  | free block =>
    cases hs
    obtain ⟨hi, -, hlive⟩ := hlegal
    refine h.free_inv (fun e => ?_) hlive
    unfold PoolWait.me at e
    split at e
    · exact hi (by assumption) (Sum.inl.inj e)
    · cases e
  | goOn =>
    simp only [PoolWaitOp.exec] at hs
    cases hp : s.here with
    | outside => exact absurd hp hlegal
    | looking size again i allocL freeL =>
      rw [hp] at hs
      obtain rfl := some.inj hs
      exact h.look_inv hp
    | toTake size again allocL freeL => rw [hp] at hs; exact h.take_inv h4 he hp hrace hs
    | toBreak size data fromL allocL => rw [hp] at hs; exact h.split_inv h4 he hp hrace hs
    | toPend size => rw [hp] at hs; exact h.pend_inv hp hs
    | pended size =>
      rw [hp] at hs
      cases hs
      have hf : s.here.frees = false := by simp [hp, PoolPlace.frees]
      obtain ⟨-, hme⟩ := h.me_thread (by simp [hp]) hf
      exact h.lookAnew (h.me_ne_idle (by simp [hp])) (by simp [hme]) hf size false
    | freeing level bn => rw [hp] at hs; exact h.give_inv h4 he hp hrace hs
    | toWake => rw [hp] at hs; exact h.wake_inv hp hs

theorem PoolBooted.waitInv (h4 : 4 ∣ g.maxsz) (he : g.EvenLevels) (hpos : 0 < g.nLevels) (h : PoolBooted H cfg g s) :
    WaitInv H cfg waitQ g s := by
  obtain ⟨p, hblank, hinit⟩ := h.pool
  obtain ⟨p0, F, B, hinit', hinv⟩ := PoolInv.sysMemPoolBaseInit h4 he hpos hblank
  obtain rfl : p0 = s.pool := by simpa [hinit] using hinit'.symm
  refine ⟨⟨_, h.sched.inv⟩, ⟨F, B, [], by simpa [h.live] using hinv, ?_, ?_⟩, fun c => ?_, h.place _,
    fun k => .inl (h.place _), fun c => ?_, fun t ht => ?_,
    ?_, ?_⟩
  · simp [h.place, PoolPlace.holds]
  · simp [h.place, PoolPlace.holds]
  · rw [h.place]
    trivial
  · simp [h.place, h.calls, PoolPlace.frees]
  · have := ht.1
    simp [(h.sched.base t).1] at this
  · simp [h.place, PoolPlace.sawEmpty]
  · simp [h.place]

/-- In every state that a run from boot reaches by legal steps that meet `ok`, no wake-up is lost. -/
def LosesNone (H : Q.Lawful) (cfg : Config N) (waitQ : W) (g : PoolDef)
    (ok : PoolWait N W σ → PoolWaitOp N W → Prop) : Prop :=
  ∀ s0, PoolBooted H cfg g s0 → ∀ ops,
    Runs.Along (PoolWaitOp.exec Q cfg waitQ g) (fun s op => s.Legal H cfg waitQ op ∧ ok s op) s0 ops →
    ∀ s, Runs.run (PoolWaitOp.exec Q cfg waitQ g) s0 ops = some s → s.NoneLost waitQ g

theorem losesNone_of (h4 : 4 ∣ g.maxsz) (he : g.EvenLevels) (hpos : 0 < g.nLevels)
    {ok : PoolWait N W σ → PoolWaitOp N W → Prop}
    (hok : ∀ s op, s.Legal H cfg waitQ op → ok s op → s.Unraced waitQ g op ∧ op.Fine H cfg s) :
    LosesNone H cfg waitQ g ok := by
  intro s0 hboot ops hall s hrun
  have hstep : ∀ s op s', WaitInv H cfg waitQ g s → s.Legal H cfg waitQ op ∧ ok s op →
    PoolWaitOp.exec Q cfg waitQ g s op = some s' →
      WaitInv H cfg waitQ g s' := by
    rintro s op s' h ⟨hlegal, hgo⟩ hs
    obtain ⟨hrace, hfine⟩ := hok s op hlegal hgo
    exact h.exec h4 he hlegal hrace hfine hs
  exact (Runs.run_inv hstep (hboot.waitInv h4 he hpos) hall hrun).noneLost

/-- Lists take any new priority. -/
theorem PoolWaitOp.fine_of_lists (hrekey : ∀ prio l x k, H.RekeyOk prio l x k)
    (hlegal : s.Legal H cfg waitQ op) : op.Fine H cfg s := by
  cases op with
  | sched op => exact fun L _ => op.fine_of hlegal.2.1 fun _ _ _ _ _ => hrekey _ _ _ _
  | alloc size => trivial
  | free block => trivial
  | goOn => trivial

/-- What trees need: pending threads keep their places. -/
def PoolWait.KeepsOrder (s : PoolWait N W σ) : PoolWaitOp N W → Prop
  | .sched op => KeepsPlaces s.sched op
  | _ => True

theorem PoolWaitOp.fine_of_places
    (hplace : ∀ {prio l x k}, StableQueue.KeepsPlace prio l x k → H.RekeyOk prio l x k)
    (hlegal : s.Legal H cfg waitQ op) (hkeep : s.KeepsOrder op) :
    op.Fine H cfg s := by
  cases op with
  | sched op =>
    refine fun L hL => op.fine_of hlegal.2.1 ?_
    rintro x k v rfl hv
    exact hplace (hkeep.keepsPlace hL hv)
  | alloc size => trivial
  | free block => trivial
  | goOn => trivial

/-- **No wake-up is lost in `k_mem_pool_alloc`** (kernel/mempool.c:50-127) of a pool whose levels are even, under
each choice of queues, in every run in which `Unraced` holds. -/
theorem pool_losesNone (N : Nat) (W : Type) [DecidableEq W] (hN : N ≤ 2 ^ 32) (cfg : Config N) (waitQ : W)
    (highest : ℤ) (g : PoolDef) (hmin : g.minsz ≤ g.maxsz) (h4 : 4 ∣ g.maxsz) (h8 : 8 ≤ g.maxsz) (he : g.EvenLevels) :
    LosesNone (dumbLawful N W) cfg waitQ g (PoolWait.Unraced waitQ g) ∧
      LosesNone (multiqLawful N W highest) cfg waitQ g (PoolWait.Unraced waitQ g) ∧
      LosesNone (scalableLawful W hN) cfg waitQ g (fun s op => s.Unraced waitQ g op ∧ s.KeepsOrder op) := by
  have hpos := nLevels_pos h8 hmin
  refine ⟨?_, ?_, ?_⟩
  · exact losesNone_of h4 he hpos fun s op hlegal hok => ⟨hok, op.fine_of_lists (fun _ _ _ _ => trivial) hlegal⟩
  · exact losesNone_of h4 he hpos fun s op hlegal hok => ⟨hok, op.fine_of_lists (fun _ _ _ _ => trivial) hlegal⟩
  · exact losesNone_of h4 he hpos fun s op hlegal hok => ⟨hok.1, op.fine_of_places (fun h => h) hlegal hok.2⟩

/-! ## A pool of one block -/

instance PoolWait.decidableLeaves (s : PoolWait N W σ) (op : SchedOp N W) : Decidable (s.Leaves op) := by
  induction op using SchedOp.casesOn <;> dsimp only [PoolWait.Leaves] <;> infer_instance

instance PoolWait.decidableLegal [∀ k, Decidable (H.Valid k)] (s : PoolWait N W σ) (op : PoolWaitOp N W) :
    Decidable (s.Legal H cfg waitQ op) := by
  cases op <;> dsimp only [PoolWait.Legal] <;> infer_instance

instance PoolWait.decidableUnracedAt (s : PoolWait N W σ) (p : PoolPlace) : Decidable (s.UnracedAt waitQ g p) := by
  cases p with
  | toTake _ again => cases again <;> dsimp only [PoolWait.UnracedAt] <;> infer_instance
  | _ =>
    dsimp only [PoolWait.UnracedAt]
    infer_instance

instance PoolWait.decidableUnraced (s : PoolWait N W σ) : (op : PoolWaitOp N W) → Decidable (s.Unraced waitQ g op)
  | .sched _ | .alloc _ | .free _ => isTrue trivial
  | .goOn => inferInstanceAs (Decidable (s.UnracedAt waitQ g s.here))

/-- One block of 64 bytes, and threads of the priorities 10, 5 and 0. -/
def bootPool : PoolWait 4 Unit (Links (QNode (QueueId Unit) 4)) :=
  ⟨bootSched 4 (fun y => 15 - 5 * y), (sysMemPoolBaseInit ⟨16, 64, 1⟩ blankPool).getD blankPool,
    fun _ => .outside, [], []⟩

theorem bootPool_booted : PoolBooted (dumbLawful 4 Unit) (bootConfig 4) ⟨16, 64, 1⟩ bootPool where
  sched := bootSched_booted 4 _
  pool := by
    refine ⟨blankPool, ⟨fun _ => rfl, fun _ => rfl⟩, ?_⟩
    have hsome : (sysMemPoolBaseInit ⟨16, 64, 1⟩ blankPool).isSome = true := by decide +kernel
    obtain ⟨p, hp⟩ := isSome_iff_exists.1 hsome
    simp only [bootPool, hp, getD_some]
  place _ := rfl
  live := rfl
  calls := rfl

/-- Thread 1 has the only block, and thread 3 looks for one and finds nothing. -/
def findsNothing : List (PoolWaitOp 4 Unit) :=
  [.sched (.start 1), .alloc 64, .goOn, .goOn, .goOn, .sched (.start 3), .alloc 64, .goOn, .goOn]

theorem pool_losesNone_oneWaits :
    ∃ s, Runs.run (PoolWaitOp.exec (dumbQueues 4 Unit) (bootConfig 4) () ⟨16, 64, 1⟩) bootPool
    (findsNothing ++ [.goOn]) = some s ∧
      s.place (.inl 3) = .pended 64 ∧ s.sched.WaitsOn () 3 ∧ s.calls = [] ∧ s.NoneLost () ⟨16, 64, 1⟩ := by
  refine Runs.exists_end (P := fun s => s.place (.inl 3) = .pended 64 ∧ s.sched.WaitsOn () 3 ∧ s.calls = [])
    (by decide +kernel) ?_
  rintro s hrun ⟨hplace, hwaits, hcalls⟩
  refine ⟨hplace, hwaits, hcalls, ?_⟩
  have heven : EvenLevels ⟨16, 64, 1⟩ := by
    intro l hl
    have hlevels : (⟨16, 64, 1⟩ : PoolDef).nLevels = 2 := by decide
    obtain rfl : l = 0 := by omega
    exact .inr (by decide)
  exact (pool_losesNone 4 Unit (by decide) (bootConfig 4) () (-16) ⟨16, 64, 1⟩ (by decide) (by decide)
    (by decide) heven).1 _ bootPool_booted _
    (by decide +kernel) s hrun

/-- **A block comes back in front of the pend** (kernel/mempool.c:71-96). Thread 3 has found no block and is about
to wait when an interrupt frees the block of thread 1. Nobody is in the wait queue to be woken; then thread 3
waits, and the block is free. -/
theorem freed_before_pend :
    Runs.Along (PoolWaitOp.exec (dumbQueues 4 Unit) (bootConfig 4) () ⟨16, 64, 1⟩)
        (fun s op => s.Legal (dumbLawful 4 Unit) (bootConfig 4) () op) bootPool
        (findsNothing ++ [.sched .isrEnter, .free ⟨0, 0, 0, 64⟩, .goOn, .goOn, .sched .isrExit, .goOn]) ∧
      ∃ s, Runs.run (PoolWaitOp.exec (dumbQueues 4 Unit) (bootConfig 4) () ⟨16, 64, 1⟩) bootPool
          (findsNothing ++ [.sched .isrEnter, .free ⟨0, 0, 0, 64⟩, .goOn, .goOn, .sched .isrExit, .goOn]) = some s ∧
        s.place (.inl 3) = .pended 64 ∧ s.sched.WaitsOn () 3 ∧ s.calls = [] ∧ levelEmpty s.pool 0 = false ∧
        ¬ s.NoneLost () ⟨16, 64, 1⟩ := by
  refine ⟨by decide +kernel, Runs.exists_end (P := fun s => s.place (.inl 3) = .pended 64 ∧
    s.sched.WaitsOn () 3 ∧ s.calls = [] ∧
    levelEmpty s.pool 0 = false) (by decide +kernel) ?_⟩
  rintro s - ⟨hp, hw, hcalls, hfree⟩
  refine ⟨hp, hw, hcalls, hfree, fun hnone => ?_⟩
  have := hnone hcalls 3 64 hp hw 0 (by decide) (by decide)
  rw [hfree] at this
  cases this

end Zephyr
