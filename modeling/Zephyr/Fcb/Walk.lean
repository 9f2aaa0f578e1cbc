import Mathlib.Algebra.Order.BigOperators.Group.List
import Mathlib.Algebra.Order.Group.Nat
import Zephyr.Fcb.Layout
/-!
# Walking through the circular buffer (subsys/fs/fcb/fcb_getnext.c, fcb_walk.c)

`Reads cfg fcb loc rest` says that the valid entries behind a location are `rest`. `fcb_getnext` leads from there
to the first of them with the others behind it (`fcbGetnextNolock_reads`), so that a walk visits them all.
-/
namespace Zephyr

open Flash Chunks List Option

/-- The entries with the offsets at which they begin. -/
def located (off : Nat) : List Elem → List (Nat × Elem)
  | [] => []
  | e :: es => (off, e) :: located (off + e.bytes.length) es

/-- The locations of the entries whose checksum is right. -/
def visible (cfg : FcbCfg) (sector off : Nat) (es : List Elem) : List FcbEntry :=
  ((located off es).filter (·.2.valid)).map fun p => p.2.loc cfg sector p.1

/-- The sector holds these entries behind its header. -/
def SectorHolds (cfg : FcbCfg) (flash : List (List UInt8)) (sector : Nat) (es : List Elem) : Prop :=
  ∃ hdr n, hdr.length = fcbDiskArea ∧ flash.getD sector [] = hdr ++ (content Elem.bytes es ++ erased n) ∧
  ∀ e ∈ es, e.Fits cfg

/-- From `sector` on up to the active one, the sectors behind it are these. -/
def Follow (cfg : FcbCfg) (fcb : Fcb) : Nat → List (Nat × List Elem) → Prop
  | sector, [] => sector = fcb.active
  | sector, (next, es) :: view =>
    sector ≠ fcb.active ∧ next = fcbGetnextSector fcb.flash sector ∧ SectorHolds cfg fcb.flash next es ∧
    Follow cfg fcb next view

/-- What is visible in a row of sectors. -/
def visibleIn (cfg : FcbCfg) (view : List (Nat × List Elem)) : List FcbEntry :=
    view.flatMap fun v => visible cfg v.1 fcbDiskArea v.2

/-- **The valid entries behind the location**, which is at an entry `e` with `es` behind it in its sector, are
`rest`. -/
def Reads (cfg : FcbCfg) (fcb : Fcb) (loc : FcbEntry) (rest : List FcbEntry) : Prop :=
  ∃ (a : List UInt8) (e : Elem) (es : List Elem) (n : Nat) (view : List (Nat × List Elem)),
    fcb.flash.getD loc.sector [] = a ++ (e.bytes ++ (content Elem.bytes es ++ erased n)) ∧
    loc = e.loc cfg loc.sector a.length ∧
    a ≠ [] ∧ e.Fits cfg ∧ (∀ x ∈ es, x.Fits cfg) ∧ Follow cfg fcb loc.sector view ∧ view.length ≤ fcb.flash.length ∧
    rest = visible cfg loc.sector (a.length + e.bytes.length) es ++ visibleIn cfg view

variable {r : ℤ × FcbEntry}

section

variable {cfg : FcbCfg} {fcb : Fcb} {flash : List (List UInt8)} {sector n : Nat} {a : List UInt8} {e : Elem}
    {es : List Elem}

theorem visible_cons (off : Nat) : visible cfg sector off (e :: es) =
    if e.valid then e.loc cfg sector off :: visible cfg sector
    (off + e.bytes.length) es else visible cfg sector (off + e.bytes.length) es := by
  unfold visible
  by_cases h : e.valid = true
  · simp [located, h]
  · simp [located, h]

theorem skip_loc (he : e.Fits cfg) (sector off : Nat) :
    ((e.loc cfg sector off).skip cfg).elemOff = off + e.bytes.length := by
  rw [he.length]
  simp only [FcbEntry.skip, Elem.loc]
  omega

theorem loc_skip (he : e.Fits cfg) : (e.loc cfg sector a.length).skip cfg =
    ⟨sector, (a ++ e.bytes).length, a.length + fcbLenInFlash cfg e.lenBytes.length, e.len⟩ := by
  rw [length_append, ← skip_loc he sector a.length]
  rfl

/-- What `fcb_getnext_in_sector` finds behind an entry at `a`, with the place where it stops. -/
def InSector (cfg : FcbCfg) (sector off : Nat) (es : List Elem) (r : ℤ × FcbEntry) : Prop :=
  match visible cfg sector off es with
  | [] => r.1 = fcbErrNovar ∧ r.2.sector = sector ∧ r.2.elemOff = off + (content Elem.bytes es).length
  | loc :: rest => r = (0, loc) ∧ ∃ passed x xs, es = passed ++ x :: xs ∧
      loc = x.loc cfg sector (off + (content Elem.bytes passed).length) ∧
      rest = visible cfg sector (off + (content Elem.bytes passed).length + x.bytes.length) xs

theorem InSector.cons {off : Nat} (hvalid : e.valid ≠ true) (h : InSector cfg sector (off + e.bytes.length) es r) :
    InSector cfg sector off (e :: es) r := by
  unfold InSector at h ⊢
  rw [visible_cons, if_neg hvalid]
  cases hv : visible cfg sector (off + e.bytes.length) es with
  | nil =>
    rw [hv] at h
    obtain ⟨hrc, hsector, hoff⟩ := h
    exact ⟨hrc, hsector, by rw [hoff, content_cons, length_append, add_assoc]⟩
  | cons loc rest =>
    rw [hv] at h
    obtain ⟨hr, passed, x, xs, rfl, hloc, hrest⟩ := h
    have hlen : (content Elem.bytes (e :: passed)).length = e.bytes.length + (content Elem.bytes passed).length := by
      rw [content_cons, length_append]
    refine ⟨hr, e :: passed, x, xs, rfl, ?_, ?_⟩
    · rw [hloc, hlen, add_assoc]
    · rw [hrest, hlen, add_assoc off]

/-- The induction is on the entries behind; every round passes one. -/
theorem inSectorLoop_spec (hmax : cfg.maxLen ≤ 0x7fff) (he : e.Fits cfg) (hes : ∀ x ∈ es, x.Fits cfg)
    (h : flash.getD sector [] = a ++ (e.bytes ++ (content Elem.bytes es ++ erased n))) {fuel : Nat}
    (hfuel : es.length + 1 ≤ fuel) :
    ∃ r, inSectorLoop cfg flash fuel (e.loc cfg sector a.length) = some r ∧
    InSector cfg sector (a.length + e.bytes.length) es r := by
  induction es generalizing e a fuel with
  | nil =>
    obtain ⟨fuel, rfl⟩ : ∃ f, fuel = f + 1 := ⟨fuel - 1, by omega⟩
    have hend : flash.getD sector [] = (a ++ e.bytes) ++ erased n := by rw [h, content_nil, nil_append, append_assoc]
    refine ⟨_, by rw [inSectorLoop, loc_skip he, fcbElemInfo_end hend]; rfl, ?_⟩
    simp [InSector, visible, located]
  | cons x es ih =>
    obtain ⟨fuel, rfl⟩ : ∃ f, fuel = f + 1 := ⟨fuel - 1, by omega⟩
    have hx : x.Fits cfg := hes x mem_cons_self
    have hnext : flash.getD sector [] = (a ++ e.bytes) ++ (x.bytes ++ (content Elem.bytes es ++ erased n)) := by
      rw [h, content_cons, append_assoc, append_assoc]
    rw [inSectorLoop, loc_skip he, fcbElemInfo_elem hmax hx hnext]
    by_cases hvalid : x.valid = true
    · refine ⟨(0, x.loc cfg sector (a ++ e.bytes).length), by simp [hvalid, fcbErrCrc], ?_⟩
      rw [InSector, visible_cons, if_pos hvalid, ← length_append]
      exact ⟨rfl, [], x, es, rfl, rfl, rfl⟩
    · obtain ⟨r, hr, hin⟩ := ih hx (fun y hy => hes y (mem_cons_of_mem _ hy)) hnext (Nat.le_of_succ_le_succ hfuel)
      rw [length_append] at hin
      exact ⟨r, by simp only [if_neg hvalid, if_true, hr], InSector.cons hvalid hin⟩

theorem length_le_content (h : ∀ x ∈ es, x.Fits cfg) : es.length ≤ (content Elem.bytes es).length := by
  induction es with
  | nil => exact Nat.zero_le _
  | cons x es ih =>
    have hx := (h x mem_cons_self).two_le
    have := ih fun y hy => h y (mem_cons_of_mem _ hy)
    rw [content_cons, length_append, length_cons]
    omega

/-- **`fcb_getnext_in_sector` (fcb_getnext.c:14)** at an entry. -/
theorem fcbGetnextInSector_elem (hmax : cfg.maxLen ≤ 0x7fff) (he : e.Fits cfg) (hes : ∀ x ∈ es, x.Fits cfg)
    (h : flash.getD sector [] = a ++ (e.bytes ++ (content Elem.bytes es ++ erased n))) (d l : Nat) :
    ∃ r, fcbGetnextInSector cfg flash ⟨sector, a.length, d, l⟩ = some r ∧
    InSector cfg sector (a.length + e.bytes.length) es r := by
  have hfuel : es.length + 1 ≤ sectorSize flash sector + 1 := by
    have := length_le_content hes
    rw [sectorSize, h]
    simp only [length_append]
    omega
  obtain ⟨r, hr, hin⟩ := inSectorLoop_spec hmax he hes h hfuel
  refine ⟨r, ?_, hin⟩
  have hrc : (if e.valid = true then 0 else fcbErrCrc) = 0 ∨ (if e.valid = true then 0 else fcbErrCrc) = fcbErrCrc := by
    split_ifs
    · exact .inl rfl
    · exact .inr rfl
  rw [fcbGetnextInSector, fcbElemInfo_elem hmax he h]
  simp only [if_pos hrc]
  exact hr

/-- Behind the header of a sector with entries `es`: the first of them, or none. -/
theorem SectorHolds.first (hmax : cfg.maxLen ≤ 0x7fff) (h : SectorHolds cfg flash sector es) (d l : Nat) :
    (es = [] ∧ fcbElemInfo cfg flash ⟨sector, fcbDiskArea, d, l⟩ = (fcbErrNovar, ⟨sector, fcbDiskArea, d, l⟩)) ∨
    ∃ x xs hdr m, es = x :: xs ∧ hdr.length = fcbDiskArea ∧
    flash.getD sector [] = hdr ++ (x.bytes ++ (content Elem.bytes xs ++ erased m)) ∧
      x.Fits cfg ∧ (∀ y ∈ xs, y.Fits cfg) ∧
      fcbElemInfo cfg flash ⟨sector, fcbDiskArea, d, l⟩ = (if x.valid then 0 else fcbErrCrc,
        x.loc cfg sector fcbDiskArea) := by
  obtain ⟨hdr, m, hlen, hflash, hfits⟩ := h
  cases es with
  | nil =>
    left
    rw [content_nil, nil_append] at hflash
    exact ⟨rfl, by rw [← hlen]; exact fcbElemInfo_end hflash d l⟩
  | cons x xs =>
    right
    rw [content_cons, append_assoc] at hflash
    have hx := hfits x mem_cons_self
    exact ⟨x, xs, hdr, m, rfl, hlen, hflash, hx, fun y hy => hfits y (mem_cons_of_mem _ hy),
      by rw [← hlen]; exact fcbElemInfo_elem hmax hx hflash d l⟩

/-- What `fcb_getnext` returns where `rest` is to come. -/
def Next (cfg : FcbCfg) (fcb : Fcb) (rest : List FcbEntry) (r : ℤ × FcbEntry) : Prop :=
  match rest with
  | [] => r.1 = fcbErrNovar
  | loc :: rest => r = (0, loc) ∧ Reads cfg fcb loc rest

variable {view : List (Nat × List Elem)}

section

variable (hmax : cfg.maxLen ≤ 0x7fff) (hne : a ≠ []) (he : e.Fits cfg) (hes : ∀ x ∈ es, x.Fits cfg)
    (h : fcb.flash.getD sector [] = a ++ (e.bytes ++ (content Elem.bytes es ++ erased n)))
    (hfollow : Follow cfg fcb sector view) (hview : view.length ≤ fcb.flash.length)

include hmax hne he hes h hfollow hview

/-- In the sector of an entry there is the next one, or none. -/
theorem fcbGetnextInSector_next (d l : Nat) : ∃ r, fcbGetnextInSector cfg fcb.flash ⟨sector, a.length, d, l⟩ = some r ∧
    (r.1 = 0 ∧ Next cfg fcb (visible cfg sector (a.length + e.bytes.length) es ++ visibleIn cfg view) r ∨
      r.1 = fcbErrNovar ∧ r.2.sector = sector ∧ visible cfg sector (a.length + e.bytes.length) es = []) := by
  obtain ⟨r, hr, hin⟩ := fcbGetnextInSector_elem hmax he hes h d l
  refine ⟨r, hr, ?_⟩
  rw [← length_append] at hin ⊢
  unfold InSector at hin
  cases hv : visible cfg sector (a ++ e.bytes).length es with
  | nil =>
    rw [hv] at hin
    exact .inr ⟨hin.1, hin.2.1, rfl⟩
  | cons loc rest =>
    rw [hv] at hin
    obtain ⟨rfl, passed, x, xs, rfl, hloc, hrest⟩ := hin
    have hsector : loc.sector = sector := by rw [hloc]; rfl
    have hlen : (a ++ e.bytes ++ content Elem.bytes passed).length =
      (a ++ e.bytes).length + (content Elem.bytes passed).length := length_append
    refine .inl ⟨rfl, rfl, a ++ e.bytes ++ content Elem.bytes passed, x, xs, n, view, ?_, ?_,
      append_ne_nil_of_left_ne_nil (append_ne_nil_of_left_ne_nil hne _) _, hes x (by simp),
      fun y hy => hes y (by simp [hy]), ?_, hview, ?_⟩
    · rw [hsector, h, content_append, content_cons]
      simp only [append_assoc]
    · rw [hsector, hlen, hloc]
    · rwa [hsector]
    · change rest ++ visibleIn cfg view = _
      rw [hsector, hlen, hrest]

/-- In the sector of an entry, and then in those behind it. -/
theorem getnextLoop_crc {fuel : Nat} (d l : Nat)
    (hrest : ∀ rc loc, rc ≠ fcbErrCrc → loc.sector = sector → ∃ r, getnextLoop cfg fcb fuel rc loc = some r ∧
      Next cfg fcb (visibleIn cfg view) r) :
    ∃ r, getnextLoop cfg fcb (fuel + 1) fcbErrCrc ⟨sector, a.length, d, l⟩ = some r ∧
      Next cfg fcb (visible cfg sector (a.length + e.bytes.length) es ++ visibleIn cfg view) r := by
  obtain ⟨⟨rc, loc⟩, hr, ⟨hrc, hnext⟩ | ⟨hrc, hsector, hnone⟩⟩ :=
    fcbGetnextInSector_next hmax hne he hes h hfollow hview d l
  · cases hrc
    exact ⟨_, by rw [getnextLoop, if_pos rfl, hr]; rfl, hnext⟩
  · cases hrc
    obtain ⟨q, hq, hnext⟩ := hrest fcbErrNovar loc (by decide) hsector
    exact ⟨q, by rw [getnextLoop, if_pos rfl, hr]; exact hq, by rwa [hnone, nil_append]⟩

end

/-- A sector is entered at its header, and then those behind it are. -/
theorem SectorHolds.enter (hmax : cfg.maxLen ≤ 0x7fff) (hholds : SectorHolds cfg fcb.flash sector es)
    (hfollow : Follow cfg fcb sector view) (hview : view.length ≤ fcb.flash.length) {fuel : Nat} (d l : Nat)
    (hrest : ∀ k rc loc, fuel ≤ k → rc ≠ fcbErrCrc → loc.sector = sector →
      ∃ r, getnextLoop cfg fcb k rc loc = some r ∧ Next cfg fcb (visibleIn cfg view) r) :
    ∃ r, (let r := fcbElemInfo cfg fcb.flash ⟨sector, fcbDiskArea, d, l⟩
      if r.1 = 0 then some (0, r.2) else getnextLoop cfg fcb (fuel + 1) r.1 r.2) = some r ∧
      Next cfg fcb (visibleIn cfg ((sector, es) :: view)) r := by
  change ∃ r, _ ∧ Next cfg fcb (visible cfg sector fcbDiskArea es ++ visibleIn cfg view) r
  rcases hholds.first hmax d l with ⟨rfl, hinfo⟩ | ⟨x, xs, hdr, m, rfl, hlen, hflash, hx, hxs, hinfo⟩
  · obtain ⟨r, hr, hres⟩ :=
      hrest (fuel + 1) fcbErrNovar ⟨sector, fcbDiskArea, d, l⟩ (Nat.le_succ _) (by decide) rfl
    exact ⟨r, by rw [hinfo]; exact hr, hres⟩
  · rw [hinfo]
    have hhdr : hdr ≠ [] := length_pos_iff.1 (by rw [hlen]; decide)
    by_cases hvalid : x.valid = true
    · refine ⟨(0, x.loc cfg sector fcbDiskArea), by simp only [if_pos hvalid, if_true], ?_⟩
      rw [visible_cons, if_pos hvalid]
      exact ⟨rfl, hdr, x, xs, m, view, hflash, by rw [hlen]; rfl, hhdr, hx, hxs, hfollow, hview, by rw [hlen]; rfl⟩
    · obtain ⟨r, hr, hres⟩ := getnextLoop_crc hmax hhdr hx hxs hflash hfollow hview
        (fcbDiskArea + fcbLenInFlash cfg x.lenBytes.length) x.len fun rc loc => hrest fuel rc loc (Nat.le_refl _)
      rw [hlen] at hr hres
      refine ⟨r, ?_, by rwa [visible_cons, if_neg hvalid]⟩
      simp only [if_neg hvalid]
      rw [if_neg (by decide)]
      exact hr

/-- **From the end of a sector on.** The induction is on the sectors behind it. -/
theorem getnextLoop_novar (hmax : cfg.maxLen ≤ 0x7fff) {rc : ℤ} {loc : FcbEntry} {fuel : Nat} (hrc : rc ≠ fcbErrCrc)
    (hfollow : Follow cfg fcb loc.sector view) (hview : view.length ≤ fcb.flash.length)
    (hfuel : 2 * view.length + 1 ≤ fuel) :
    ∃ r, getnextLoop cfg fcb fuel rc loc = some r ∧ Next cfg fcb (visibleIn cfg view) r := by
  induction view generalizing rc loc fuel with
  | nil =>
    obtain ⟨fuel, rfl⟩ : ∃ f, fuel = f + 1 := ⟨fuel - 1, by omega⟩
    have hactive : loc.sector = fcb.active := hfollow
    exact ⟨(fcbErrNovar, loc), by rw [getnextLoop, if_neg hrc, if_pos hactive], rfl⟩
  | cons v view ih =>
    obtain ⟨next, es⟩ := v
    obtain ⟨fuel, rfl⟩ : ∃ f, fuel = f + 2 := ⟨fuel - 2, by rw [length_cons] at hfuel; omega⟩
    obtain ⟨hactive, hnext, hholds, hfollow⟩ := hfollow
    rw [length_cons] at hview hfuel
    rw [getnextLoop, if_neg hrc, if_neg hactive, ← hnext]
    exact hholds.enter hmax hfollow (by omega) _ _ fun k rc' loc' (hk : fuel ≤ k) hrc' hsector =>
      ih hrc' (by rwa [hsector]) (by omega) (by omega)

/-- **`fcb_getnext` (fcb_getnext.c:44) from an entry** goes to the next valid one. -/
theorem fcbGetnextNolock_reads (hmax : cfg.maxLen ≤ 0x7fff) {loc : FcbEntry} {rest : List FcbEntry}
    (h : Reads cfg fcb loc rest) :
    ∃ r, fcbGetnextNolock cfg fcb (some loc) = some r ∧ Next cfg fcb rest r := by
  obtain ⟨a, e, es, n, view, hflash, hloc, hne, he, hes, hfollow, hview, rfl⟩ := h
  obtain ⟨sector, elemOff, dataOff, dataLen⟩ := loc
  have hoff : elemOff = a.length := congrArg FcbEntry.elemOff hloc
  subst hoff
  have hstart : ¬ a.length = 0 := fun h => hne (length_eq_zero_iff.1 h)
  obtain ⟨⟨rc, loc⟩, hr, ⟨hrc, hnext⟩ | ⟨hrc, hsector, hnone⟩⟩ :=
    fcbGetnextInSector_next hmax hne he hes hflash hfollow hview dataOff dataLen
  · cases hrc
    exact ⟨_, by simp only [fcbGetnextNolock, getD_some, if_neg hstart, hr]; rfl, hnext⟩
  · cases hrc
    obtain ⟨q, hq, hnext⟩ := @getnextLoop_novar cfg fcb view hmax fcbErrNovar loc (2 * fcb.flash.length + 1)
      (by decide) (by rwa [hsector]) hview (by omega)
    exact ⟨q, by simp only [fcbGetnextNolock, getD_some, if_neg hstart, hr]; exact hq, by rwa [hnone, nil_append]⟩

/-- The sectors in use, from the oldest to the active one. -/
structure Live (cfg : FcbCfg) (fcb : Fcb) (view : List (Nat × List Elem)) : Prop where
  sectors : ∃ es rest, view = (fcb.oldest, es) :: rest ∧ SectorHolds cfg fcb.flash fcb.oldest es ∧
    Follow cfg fcb fcb.oldest rest
  length : view.length ≤ fcb.flash.length

/-- **From an empty location** the first valid entry is found. -/
theorem fcbGetnextNolock_none (hmax : cfg.maxLen ≤ 0x7fff) (h : Live cfg fcb view) :
    ∃ r, fcbGetnextNolock cfg fcb none = some r ∧ Next cfg fcb (visibleIn cfg view) r := by
  obtain ⟨⟨es, view, rfl, hholds, hfollow⟩, hlen⟩ := h
  rw [length_cons] at hlen
  exact hholds.enter hmax hfollow (by omega) 0 0 fun k rc loc hk hrc hsector =>
    getnextLoop_novar hmax hrc (by rwa [hsector]) (by omega) (by omega)

/-- A walk visits all there is. -/
theorem visit_reads (hmax : cfg.maxLen ≤ 0x7fff) {goOn : ℤ → Bool} (hzero : goOn 0 = true)
    (hnovar : goOn fcbErrNovar = false) {rest : List FcbEntry}
    {loc : Option FcbEntry} {fuel : Nat} (hfuel : rest.length + 1 ≤ fuel)
    (h : ∃ r, fcbGetnextNolock cfg fcb loc = some r ∧ Next cfg fcb rest r) :
    visit cfg fcb goOn fuel loc = some rest := by
  induction rest generalizing loc fuel with
  | nil =>
    obtain ⟨fuel, rfl⟩ : ∃ f, fuel = f + 1 := ⟨fuel - 1, by omega⟩
    obtain ⟨r, hr, hrc⟩ := h
    have hstop : goOn r.1 = false := by rw [show r.1 = fcbErrNovar from hrc, hnovar]
    simp only [visit, hr, bind_eq_bind, bind_some, hstop]
    rfl
  | cons l rest ih =>
    obtain ⟨fuel, rfl⟩ : ∃ f, fuel = f + 1 := ⟨fuel - 1, by rw [length_cons] at hfuel; omega⟩
    obtain ⟨r, hr, rfl, hreads⟩ := h
    have hrest := ih (Nat.le_of_succ_le_succ hfuel) (fcbGetnextNolock_reads hmax hreads)
    simp only [visit, hr, bind_eq_bind, bind_some, hzero, if_true, hrest, map_some]

theorem length_visible (h : ∀ x ∈ es, x.Fits cfg) (off : Nat) :
    (visible cfg sector off es).length ≤ (content Elem.bytes es).length := by
  have hlocated : ∀ off, (located off es).length = es.length := by
    induction es with
    | nil => exact fun _ => rfl
    | cons e es ih => exact fun off => congrArg (· + 1) (ih (fun x hx => h x (mem_cons_of_mem _ hx)) _)
  rw [visible, length_map]
  refine le_trans (length_filter_le _ _) ?_
  rw [hlocated]
  exact length_le_content h

theorem sectorSize_le (flash : List (List UInt8)) (sector : Nat) :
    sectorSize flash sector ≤ (flash.map List.length).sum := by
  unfold sectorSize
  by_cases h : sector < flash.length
  · rw [getD_eq_getElem _ _ h]
    exact single_le_sum (fun _ _ => Nat.zero_le _) _ (List.mem_map_of_mem (getElem_mem h))
  · rw [getD_eq_default _ _ (Nat.le_of_not_lt h)]
    exact Nat.zero_le _

theorem SectorHolds.length_visible (h : SectorHolds cfg flash sector es) :
    (visible cfg sector fcbDiskArea es).length ≤ (flash.map List.length).sum := by
  obtain ⟨hdr, n, -, hflash, hfits⟩ := h
  have hsize : (content Elem.bytes es).length ≤ sectorSize flash sector := by
    rw [sectorSize, hflash]
    simp only [length_append]
    omega
  exact le_trans (Zephyr.length_visible hfits _) (le_trans hsize (sectorSize_le flash sector))

theorem Follow.length_visibleIn (h : Follow cfg fcb sector view) :
    (visibleIn cfg view).length ≤ view.length * (fcb.flash.map List.length).sum := by
  induction view generalizing sector with
  | nil => exact Nat.zero_le _
  | cons v view ih =>
    obtain ⟨-, -, hholds, hfollow⟩ := h
    have h₁ := hholds.length_visible
    have h₂ := ih hfollow
    change (visible cfg v.1 fcbDiskArea v.2 ++ visibleIn cfg view).length ≤ _
    rw [length_append, length_cons, Nat.succ_mul]
    omega

theorem Live.length_visibleIn (h : Live cfg fcb view) : (visibleIn cfg view).length + 1 ≤ walkFuel fcb.flash := by
  obtain ⟨⟨es, rest, rfl, hholds, hfollow⟩, hlen⟩ := h
  have h₁ := hholds.length_visible
  have h₂ := hfollow.length_visibleIn
  have hle : (rest.length + 1) * (fcb.flash.map List.length).sum ≤
    fcb.flash.length * (fcb.flash.map List.length).sum := Nat.mul_le_mul_right _ hlen
  change (visible cfg fcb.oldest fcbDiskArea es ++ visibleIn cfg rest).length + 1 ≤ _
  rw [Nat.succ_mul] at hle
  rw [length_append, walkFuel]
  omega

/-- **Both walks visit the valid entries of the sectors in use**, in order. -/
theorem fcbWalk_live (hmax : cfg.maxLen ≤ 0x7fff) (h : Live cfg fcb view) :
    fcbWalk cfg fcb = some (visibleIn cfg view) ∧ fcbGetnextAll cfg fcb = some (visibleIn cfg view) :=
  ⟨visit_reads hmax rfl rfl h.length_visibleIn (fcbGetnextNolock_none hmax h),
    visit_reads hmax rfl rfl h.length_visibleIn (fcbGetnextNolock_none hmax h)⟩

end

end Zephyr
