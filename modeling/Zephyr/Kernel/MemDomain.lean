import Mathlib.Data.List.GetD
import Zephyr.Lib.Runs
/-!
# Memory domains (kernel/mem_domain.c) with `CONFIG_EXECUTE_XOR_WRITE`

A domain has an array of partitions. A slot of size 0 is free; a partition is added to the first free slot and its
slot is cleared when it is removed, so that free slots can be anywhere. `num_partitions` counts the partitions.
`sane_partition` compares a new one with those in the first `num_partitions` slots: if one has been removed, a
partition behind them is not compared (`missed_partition`).

`none` is an assertion that fails, or an access behind the array. Attributes are those of any architecture. Which
threads are in a domain and what the MPU is told is left out.
-/
namespace Zephyr

open Function List Option

structure MpuAttrs (A : Type) where
  isWritable : A → Bool
  isExecutable : A → Bool
  zero : A

structure KMemPartition (A : Type) where
  start : BitVec 32
  size : BitVec 32
  attr : A
deriving DecidableEq

/-- `M` is `CONFIG_MAX_DOMAIN_PARTITIONS`. -/
structure KMemDomain (A : Type) (M : Nat) where
  partitions : Fin M → KMemPartition A
  /-- a `u8_t` -/
  numPartitions : Nat

variable {A D : Type} {M : Nat} (mpu : MpuAttrs A)

/-- The sum is one of `u32_t`. -/
def KMemPartition.stop (part : KMemPartition A) : BitVec 32 := part.start + part.size

def MpuAttrs.free : KMemPartition A := ⟨0, 0, mpu.zero⟩

/-- One turn of the loop in `sane_partition` (mem_domain.c:36-54). -/
def saneWith (part cur : KMemPartition A) : Bool :=
  if part.stop < cur.start ∨ cur.stop < part.start then true
  else !(mpu.isWritable cur.attr && mpu.isExecutable part.attr || mpu.isExecutable cur.attr && mpu.isWritable part.attr)

def sanePartition (part : KMemPartition A) (parts : Fin M → KMemPartition A) (numParts : Nat) : Option Bool :=
  if mpu.isExecutable part.attr && mpu.isWritable part.attr then some false
  else (List.range numParts).allM fun i => if h : i < M then some (saneWith mpu part (parts ⟨i, h⟩)) else none

/-- `max_partitions` is what the architecture has, at most `M`. -/
def kMemDomainInit (maxPartitions : Nat) (parts : List (KMemPartition A)) : Option (KMemDomain A M) := do
  guard (parts.length ≤ maxPartitions)
  guard (∀ part ∈ parts, part.stop > part.start)
  let domain : KMemDomain A M := ⟨fun i => parts.getD i mpu.free, parts.length⟩
  guard ((List.range parts.length).allM (fun i =>
    if h : i < M then sanePartition mpu (domain.partitions
      ⟨i, h⟩) domain.partitions domain.numPartitions else none) = some true)
  some domain

/-- The first slot below `max_partitions` that is like that. -/
def KMemDomain.findSlot (domain : KMemDomain A M) (maxPartitions : Nat) (p : KMemPartition A → Bool) : Option (Fin M) :=
  (List.finRange M).find? fun i => decide (i.val < maxPartitions) && p (domain.partitions i)

def KMemDomain.setSlot (domain : KMemDomain A M) (i : Fin M) (part : KMemPartition A) : KMemDomain A M :=
  { domain with partitions := update domain.partitions i part }

def kMemDomainAddPartition (maxPartitions : Nat) (domain : KMemDomain A M)
    (part : KMemPartition A) : Option (KMemDomain A M) := do
  guard (part.stop > part.start)
  guard (sanePartition mpu part domain.partitions domain.numPartitions = some true)
  let idx ← domain.findSlot maxPartitions fun slot => slot.size = 0
  some { domain.setSlot idx part with numPartitions := (domain.numPartitions + 1) % 256 }

def kMemDomainRemovePartition (maxPartitions : Nat) (domain : KMemDomain A M)
    (part : KMemPartition A) : Option (KMemDomain A M) := do
  let idx ← domain.findSlot maxPartitions fun slot => slot.start = part.start && slot.size = part.size
  some { domain.setSlot idx mpu.free with numPartitions := (domain.numPartitions + 255) % 256 }

inductive MemDomainOp (A D : Type) where
  | init (d : D) (parts : List (KMemPartition A))
  | add (d : D) (part : KMemPartition A)
  | remove (d : D) (part : KMemPartition A)

/-- Any number of domains; one that has not been initialized is `none`. -/
def MemDomainOp.exec [DecidableEq D] (maxPartitions : Nat) (s : D → Option (KMemDomain A M)) :
    MemDomainOp A D → Option (D → Option (KMemDomain A M))
  | .init d parts => (kMemDomainInit mpu maxPartitions parts).map fun domain => update s d (some domain)
  | .add d part => do
    let domain ← s d
    let domain ← kMemDomainAddPartition mpu maxPartitions domain part
    some (update s d (some domain))
  | .remove d part => do
    let domain ← s d
    let domain ← kMemDomainRemovePartition mpu maxPartitions domain part
    some (update s d (some domain))

abbrev memDomainRun [DecidableEq D] (maxPartitions : Nat) : (D → Option (KMemDomain A M)) → List (MemDomainOp A D) →
    Option (D → Option (KMemDomain A M)) :=
  Runs.run (MemDomainOp.exec mpu maxPartitions)

/-! ## Write or execute -/

def KMemPartition.Live (part : KMemPartition A) : Prop := part.size ≠ 0

/-- The address is one of the partition, which ends where it ends in `Nat`. -/
def KMemPartition.Has (part : KMemPartition A) (addr : Nat) : Prop :=
  part.start.toNat ≤ addr ∧ addr < part.start.toNat + part.size.toNat

instance (part : KMemPartition A) : Decidable part.Live := inferInstanceAs (Decidable (_ ≠ _))

instance (part : KMemPartition A) (addr : Nat) : Decidable (part.Has addr) := inferInstanceAs (Decidable (_ ∧ _))

/-- No partition can be both written and executed, and no byte can be written in one and executed in another. -/
structure KMemDomain.WriteXorExecute (domain : KMemDomain A M) : Prop where
  one : ∀ i, (domain.partitions i).Live →
    ¬ (mpu.isWritable (domain.partitions i).attr = true ∧ mpu.isExecutable (domain.partitions i).attr = true)
  two : ∀ i j, (domain.partitions i).Live → (domain.partitions j).Live →
    (∃ addr, (domain.partitions i).Has addr ∧ (domain.partitions j).Has addr) →
    ¬ (mpu.isWritable (domain.partitions i).attr = true ∧ mpu.isExecutable (domain.partitions j).attr = true)

/-- A partition is added while all that are there are in the slots that are compared. -/
def MemDomainOp.Seen (s : D → Option (KMemDomain A M)) : MemDomainOp A D → Prop
  | .add d _ => ∀ domain ∈ s d, ∀ i : Fin M, (domain.partitions i).Live → i.val < domain.numPartitions
  | _ => True

variable {mpu} {part cur : KMemPartition A} {parts : Fin M → KMemPartition A}
    {domain domain' : KMemDomain A M} {maxPartitions : Nat}

/-! ## The check -/

theorem allM_eq_some_true {f : Nat → Option Bool} {l : List Nat} : l.allM f = some true ↔ ∀ i ∈ l, f i = some true := by
  induction l with
  | nil => simp [List.allM]
  | cons a l ih =>
    rw [List.allM, forall_mem_cons, ← ih]
    cases f a with
    | none => simp
    | some b => cases b <;> simp

theorem sanePartition_spec {numParts : Nat} (h : sanePartition mpu part parts numParts = some true) :
    ¬ (mpu.isExecutable part.attr = true ∧ mpu.isWritable part.attr = true) ∧
      ∀ i : Fin M, i.val < numParts → saneWith mpu part (parts i) = true := by
  unfold sanePartition at h
  split at h
  · simp at h
  · rename_i hboth
    refine ⟨by simpa using hboth, fun i hi => ?_⟩
    have hturn := allM_eq_some_true.1 h i (mem_range.2 hi)
    rw [dif_pos i.isLt] at hturn
    exact some_inj.1 hturn

/-- Without overflow a partition ends where it ends. -/
theorem KMemPartition.stop_toNat (h : part.stop > part.start) :
    part.stop.toNat = part.start.toNat + part.size.toNat := by
  have hlt : part.start.toNat < part.stop.toNat := h
  rw [stop, BitVec.toNat_add] at hlt ⊢
  omega

/-- Partitions that share a byte are compared. -/
theorem saneWith_shared (h : saneWith mpu part cur = true) (hpart : part.stop > part.start)
    (hcur : cur.stop > cur.start) (hshare : ∃ addr, part.Has addr ∧ cur.Has addr) :
    ¬ (mpu.isWritable cur.attr = true ∧ mpu.isExecutable part.attr = true) ∧
      ¬ (mpu.isExecutable cur.attr = true ∧ mpu.isWritable part.attr = true) := by
  obtain ⟨addr, ⟨h1, h2⟩, h3, h4⟩ := hshare
  have hmeet : ¬ (part.stop < cur.start ∨ cur.stop < part.start) := by
    rw [BitVec.lt_def, BitVec.lt_def, KMemPartition.stop_toNat hpart, KMemPartition.stop_toNat hcur]
    omega
  rw [saneWith, if_neg hmeet] at h
  simp only [Bool.not_eq_true', Bool.or_eq_false_iff, Bool.and_eq_false_iff] at h
  refine ⟨fun hw => ?_, fun hw => ?_⟩
  · rcases h.1 with h' | h'
    · simp [h'] at hw
    · simp [h'] at hw
  · rcases h.2 with h' | h'
    · simp [h'] at hw
    · simp [h'] at hw

/-! ## Every sequence of calls -/

/-- What holds of a domain between calls. -/
structure DomainInv (mpu : MpuAttrs A) (domain : KMemDomain A M) : Prop where
  ends : ∀ i, (domain.partitions i).Live → (domain.partitions i).stop > (domain.partitions i).start
  wx : domain.WriteXorExecute mpu

theorem kMemDomainInit_inv {parts : List (KMemPartition A)}
    (h : kMemDomainInit mpu maxPartitions parts = some domain) : DomainInv mpu domain := by
  simp only [kMemDomainInit, bind_eq_bind, bind_eq_some_iff, guard_eq_some', exists_const] at h
  obtain ⟨-, hends, hsane, hdomain⟩ := h
  rw [some_inj] at hdomain
  have hslot : ∀ i : Fin M, domain.partitions i = parts.getD i mpu.free := fun i => by rw [← hdomain]
  have hlive : ∀ i, (domain.partitions i).Live → i.val < parts.length := by
    intro i hi
    by_contra hlen
    rw [hslot, getD_eq_default _ _ (by omega)] at hi
    exact hi rfl
  have hcheck : ∀ i, (domain.partitions i).Live →
    sanePartition mpu (domain.partitions i) domain.partitions parts.length = some true := by
    intro i hi
    have hturn := allM_eq_some_true.1 hsane i (mem_range.2 (hlive i hi))
    rw [dif_pos i.isLt] at hturn
    rw [← hturn, ← hdomain]
  have hwide : ∀ i, (domain.partitions i).Live → (domain.partitions i).stop > (domain.partitions i).start := by
    intro i hi
    have hlen := hlive i hi
    rw [hslot, getD_eq_getElem _ _ hlen]
    exact hends _ (getElem_mem hlen)
  refine ⟨hwide, fun i hi hboth => ?_, fun i j hi hj hshare => ?_⟩
  · exact (sanePartition_spec (hcheck i hi)).1 hboth.symm
  · have hturn := (sanePartition_spec (hcheck i hi)).2 j (hlive j hj)
    intro hboth
    exact (saneWith_shared hturn (hwide i hi) (hwide j hj) hshare).2 hboth.symm

/-- **`k_mem_domain_add_partition` (mem_domain.c:135)** when all partitions are in slots that are compared. -/
theorem kMemDomainAddPartition_inv (h : DomainInv mpu domain)
    (hseen : ∀ i : Fin M, (domain.partitions i).Live → i.val < domain.numPartitions)
    (hadd : kMemDomainAddPartition mpu maxPartitions domain part = some domain') : DomainInv mpu domain' := by
  simp only [kMemDomainAddPartition, bind_eq_bind, bind_eq_some_iff, guard_eq_some', exists_const] at hadd
  obtain ⟨hend, hsane, idx, -, hdomain⟩ := hadd
  obtain ⟨hnot, hturn⟩ := sanePartition_spec hsane
  rw [some_inj] at hdomain
  have hself : domain'.partitions idx = part := by simp [← hdomain, KMemDomain.setSlot]
  have hother : ∀ i, i ≠ idx → domain'.partitions i = domain.partitions i := fun i hi => by
    simp [← hdomain, KMemDomain.setSlot, hi]
  -- the new partition and an old one
  have hpair : ∀ i, i ≠ idx → (domain'.partitions i).Live → ∀ addr, part.Has addr → (domain'.partitions i).Has addr →
      ¬ (mpu.isWritable (domain'.partitions i).attr = true ∧ mpu.isExecutable part.attr = true) ∧
        ¬ (mpu.isExecutable (domain'.partitions i).attr = true ∧ mpu.isWritable part.attr = true) := by
    intro i hi hlive addr hnew hold
    rw [hother i hi] at hlive hold ⊢
    exact saneWith_shared (hturn i (hseen i hlive)) hend (h.ends i hlive) ⟨addr, hnew, hold⟩
  refine ⟨fun i hi => ?_, fun i hi hboth => ?_, fun i j hi hj hshare hboth => ?_⟩
  · by_cases hii : i = idx
    · rw [hii, hself]
      exact hend
    · rw [hother i hii] at hi ⊢
      exact h.ends i hi
  · by_cases hii : i = idx
    · rw [hii, hself] at hboth
      exact hnot hboth.symm
    · rw [hother i hii] at hi hboth
      exact h.wx.one i hi hboth
  · obtain ⟨addr, hai, haj⟩ := hshare
    by_cases hii : i = idx
    · by_cases hjj : j = idx
      · rw [hii, hjj, hself] at hboth
        exact hnot hboth.symm
      · rw [hii, hself] at hai hboth
        exact (hpair j hjj hj addr hai haj).2 hboth.symm
    · by_cases hjj : j = idx
      · rw [hjj, hself] at haj hboth
        exact (hpair i hii hi addr haj hai).1 hboth
      · rw [hother i hii] at hi hai hboth
        rw [hother j hjj] at hj haj hboth
        exact h.wx.two i j hi hj ⟨addr, hai, haj⟩ hboth

theorem kMemDomainRemovePartition_inv (h : DomainInv mpu domain)
    (hremove : kMemDomainRemovePartition mpu maxPartitions domain part = some domain') : DomainInv mpu domain' := by
  simp only [kMemDomainRemovePartition, bind_eq_bind, bind_eq_some_iff] at hremove
  obtain ⟨idx, -, hdomain⟩ := hremove
  rw [some_inj] at hdomain
  have hother : ∀ i, (domain'.partitions i).Live → domain'.partitions i = domain.partitions i := by
    intro i hi
    by_cases hii : i = idx
    · exact absurd (by simp [← hdomain, KMemDomain.setSlot, hii, MpuAttrs.free]) hi
    · simp [← hdomain, KMemDomain.setSlot, hii]
  refine ⟨fun i hi => ?_, fun i hi => ?_, fun i j hi hj => ?_⟩
  · have hsame := hother i hi
    rw [hsame] at hi ⊢
    exact h.ends i hi
  · have hsame := hother i hi
    rw [hsame] at hi ⊢
    exact h.wx.one i hi
  · have hsame := hother i hi
    have hsame' := hother j hj
    rw [hsame] at hi ⊢
    rw [hsame'] at hj ⊢
    exact h.wx.two i j hi hj

variable [DecidableEq D] {s s' : D → Option (KMemDomain A M)}

theorem update_domains {d : D} (h : ∀ e, ∀ domain ∈ s e, DomainInv mpu domain) (hd : DomainInv mpu domain) :
    ∀ e, ∀ domain' ∈ update s d (some domain) e, DomainInv mpu domain' := by
  intro e domain' hmem
  by_cases he : e = d
  · subst he
    rw [update_self, mem_some_iff] at hmem
    exact hmem ▸ hd
  · rw [update_of_ne he] at hmem
    exact h e domain' hmem

theorem MemDomainOp.exec_inv (h : ∀ e, ∀ domain ∈ s e, DomainInv mpu domain) {op : MemDomainOp A D} (hseen : op.Seen s)
    (hexec : op.exec mpu maxPartitions s = some s') : ∀ e, ∀ domain ∈ s' e, DomainInv mpu domain := by
  cases op with
  | init d parts =>
    obtain ⟨domain, hinit, rfl⟩ := map_eq_some_iff.1 hexec
    exact update_domains h (kMemDomainInit_inv hinit)
  | add d part =>
    simp only [exec, bind_eq_bind, bind_eq_some_iff] at hexec
    obtain ⟨domain, hd, domain', hadd, hs'⟩ := hexec
    rw [← some_inj.1 hs']
    exact update_domains h (kMemDomainAddPartition_inv (h d domain hd) (hseen domain hd) hadd)
  | remove d part =>
    simp only [exec, bind_eq_bind, bind_eq_some_iff] at hexec
    obtain ⟨domain, hd, domain', hremove, hs'⟩ := hexec
    rw [← some_inj.1 hs']
    exact update_domains h (kMemDomainRemovePartition_inv (h d domain hd) hremove)

/-- **No byte of a domain can be written and executed** (mem_domain.c), after every sequence of calls whose
assertions hold and which adds a partition only while all partitions of the domain are in slots that are compared. -/
theorem writeXorExecute (mpu : MpuAttrs A) (maxPartitions : Nat) (ops : List (MemDomainOp A D))
    (s : D → Option (KMemDomain A M)) (hseen : Runs.Along (MemDomainOp.exec mpu maxPartitions) MemDomainOp.Seen
      (fun _ => none : D → Option (KMemDomain A M)) ops)
    (hrun : memDomainRun mpu maxPartitions (fun _ => none) ops = some s) :
    ∀ d, ∀ domain ∈ s d, domain.WriteXorExecute mpu := by
  have hinv := Runs.run_inv (I := fun s : D → Option (KMemDomain A M) => ∀ e, ∀ domain ∈ s e, DomainInv mpu domain)
    (fun s op s' h hop hexec => MemDomainOp.exec_inv h hop hexec) (by simp) hseen hrun
  exact fun d domain hd => (hinv d domain hd).wx

/-! ## A partition that is not compared -/

/-- Whether the attribute lets write, and execute. -/
def plainAttrs : MpuAttrs (Bool × Bool) := ⟨Prod.fst, Prod.snd, (false, false)⟩

def ramPart (start : BitVec 32) (write execute : Bool) : KMemPartition (Bool × Bool) :=
    ⟨start, 0x1000, (write, execute)⟩

/-- A domain with two partitions for data and one for code. -/
def threeParts : MemDomainOp (Bool × Bool) Unit :=
  .init () [ramPart 0x10000 true false, ramPart 0x20000 true false, ramPart 0x30000 false true]

instance (s : D → Option (KMemDomain A M)) (op : MemDomainOp A D) : Decidable (op.Seen s) := by
  cases op <;> dsimp only [MemDomainOp.Seen] <;> infer_instance

/-- The code is replaced by data. -/
theorem writeXorExecute_replaced :
    ∃ s : Unit → Option (KMemDomain (Bool × Bool) 4), memDomainRun plainAttrs 4 (fun _ => none)
        [threeParts, .remove () (ramPart 0x30000 false true), .add () (ramPart 0x30000 true false)] = some s ∧
      (s ()).isSome = true ∧ ∀ d, ∀ domain ∈ s d, domain.WriteXorExecute plainAttrs := by
  refine Runs.exists_end (P := fun s => (s ()).isSome = true) (by decide +kernel) fun s hrun hs => ?_
  exact ⟨hs, writeXorExecute plainAttrs 4 _ s (by decide +kernel) hrun⟩

/-- **A partition is not compared with the last one** (mem_domain.c:36). The first of three partitions has been
removed, and `num_partitions` is 2. A writable partition at the address of the third, which is executable, passes
all assertions. -/
theorem missed_partition :
    ∃ s : Unit → Option (KMemDomain (Bool × Bool) 4), memDomainRun plainAttrs 4 (fun _ => none)
        [threeParts, .remove () (ramPart 0x10000 true false), .add () (ramPart 0x30000 true false)] = some s ∧
      ∃ domain ∈ s (), ¬ domain.WriteXorExecute plainAttrs := by
  refine Runs.exists_end (P := fun s => (s ()).map (fun domain => (domain.partitions 0, domain.partitions 2)) =
    some (ramPart 0x30000 true false, ramPart 0x30000 false true)) (by decide +kernel) fun s _ hs => ?_
  obtain ⟨domain, hd, hparts⟩ := map_eq_some_iff.1 hs
  simp only [Prod.mk.injEq] at hparts
  refine ⟨domain, hd, fun hwx => ?_⟩
  refine hwx.two 0 2 ?_ ?_ ⟨0x30000, ?_⟩ ?_
  · rw [hparts.1]
    decide
  · rw [hparts.2]
    decide
  · rw [hparts.1, hparts.2]
    decide
  · rw [hparts.1, hparts.2]
    decide

end Zephyr
