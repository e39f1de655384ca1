import OsSim.Mem.Growth

/-!
# Chains of several areas (mm-vm.c:19-143)

A process of the program has one area; the code is written for a chain. The
lookup steps past every area whose id is below the wanted one and stops at the
next, whatever its id; past the last area it reads through `NULL` before it
tests for it. The overlap test compares closed intervals, so it also turns down
a growth that only touches a neighbour.
-/

namespace OsSim.Mem
open OsSim.Base

/-! ### The lookup -/

/-- The chain cut at the area where the loop stops. -/
theorem getVmaFrom_cut {vmaid : ℤ} {before after : List VmArea} {u : VmArea}
    (hbefore : ∀ w ∈ before, toInt w.vmId < vmaid) (hu : ¬toInt u.vmId < vmaid) :
    getVmaFrom vmaid (before ++ u :: after) = some before.length := by
  induction before with
  | nil => exact if_neg hu
  | cons w before ih =>
    rw [List.cons_append, getVmaFrom, if_pos (hbefore w (List.mem_cons_self ..)),
      ih fun x hx => hbefore x (List.mem_cons_of_mem _ hx)]
    rfl

theorem getVmaByNum_cons {mm : Mm} {vmaid : ℤ} (h : mm.mmap ≠ []) :
    getVmaByNum mm vmaid = (getVmaFrom vmaid mm.mmap).map some := by
  unfold getVmaByNum
  cases hmm : mm.mmap with
  | nil => exact absurd hmm h
  | cons w areas => rfl

theorem getVmaByNum_cut {mm : Mm} {vmaid : ℤ} {before after : List VmArea} {u : VmArea}
    (hmm : mm.mmap = before ++ u :: after) (hbefore : ∀ w ∈ before, toInt w.vmId < vmaid)
    (hu : ¬toInt u.vmId < vmaid) :
    getVmaByNum mm vmaid = some (some before.length) ∧ mm.vma (some before.length) = some u := by
  have hne : mm.mmap ≠ [] := by
    rw [hmm]
    exact List.append_ne_nil_of_right_ne_nil _ (List.cons_ne_nil _ _)
  rw [getVmaByNum_cons hne, hmm, getVmaFrom_cut hbefore hu]
  refine ⟨rfl, ?_⟩
  simp [Mm.vma, hmm]

/-- The lookup is defined and returns the area of that id, or `NULL` when there
is none. -/
def ExactLookup (mm : Mm) (vmaid : ℤ) : Prop :=
  ∃ ptr, getVmaByNum mm vmaid = some ptr ∧
    ((∃ v ∈ mm.mmap, (v.vmId : ℤ) = vmaid) → ∃ v, mm.vma ptr = some v ∧ (v.vmId : ℤ) = vmaid) ∧
    ((∀ v ∈ mm.mmap, (v.vmId : ℤ) ≠ vmaid) → ptr = none)

/-- `NULL` is returned for the empty chain only. -/
theorem getVmaByNum_null {mm : Mm} {vmaid : ℤ} (h : getVmaByNum mm vmaid = some none) :
    mm.mmap = [] := by
  by_contra hne
  rw [getVmaByNum_cons hne] at h
  cases hfrom : getVmaFrom vmaid mm.mmap with
  | none => simp [hfrom] at h
  | some i => simp [hfrom] at h

theorem toInt_id {n : ℕ} {vmaid : BitVec 32} (h : (n : ℤ) = vmaid.toInt) : toInt n = n := by
  have hrange := bitVec_toInt_range vmaid
  exact toInt_of_range (by omega) (by omega)

/-- On increasing ids the lookup is exact for the ids in the chain, and on the
empty chain. -/
theorem getVmaByNum_exact_iff {mm : Mm} (h : mm.mmap.Pairwise fun v w => v.vmId < w.vmId)
    (vmaid : BitVec 32) :
    ExactLookup mm vmaid.toInt ↔ mm.mmap = [] ∨ ∃ v ∈ mm.mmap, (v.vmId : ℤ) = vmaid.toInt := by
  constructor
  · intro hexact
    obtain ⟨ptr, hptr, -, hnull⟩ := hexact
    by_cases hv : ∃ v ∈ mm.mmap, (v.vmId : ℤ) = vmaid.toInt
    · exact Or.inr hv
    · push Not at hv
      obtain rfl := hnull hv
      exact Or.inl (getVmaByNum_null hptr)
  · intro hcond
    cases hcond with
    | inl hnil =>
      refine ⟨none, ?_, fun hv => ?_, fun _ => rfl⟩
      · unfold getVmaByNum
        rw [hnil]
      · obtain ⟨v, hv, -⟩ := hv
        rw [hnil] at hv
        exact absurd hv List.not_mem_nil
    | inr hv =>
      obtain ⟨v, hv, hid⟩ := hv
      obtain ⟨before, after, hmm⟩ := List.append_of_mem hv
      rw [hmm] at h
      obtain ⟨-, -, hcross⟩ := List.pairwise_append.mp h
      have hbefore : ∀ w ∈ before, toInt w.vmId < vmaid.toInt := by
        intro w hw
        have hlt := hcross w hw v (List.mem_cons_self ..)
        have hrange := bitVec_toInt_range vmaid
        rw [toInt_of_range (by omega) (by omega)]
        omega
      have hstop : ¬toInt v.vmId < vmaid.toInt := by
        rw [toInt_id hid, hid]
        exact lt_irrefl _
      obtain ⟨hptr, hvma⟩ := getVmaByNum_cut hmm hbefore hstop
      exact ⟨_, hptr, fun _ => ⟨v, hvma, hid⟩, fun hnone => absurd hid (hnone v ‹_›)⟩

/-- Areas with the ids 0, 3 and 7. -/
def gappedAreas : Mm :=
  { Mm.fresh with mmap := [⟨0, 0, 256, 256, []⟩, ⟨3, 256, 512, 512, []⟩, ⟨7, 512, 512, 512, []⟩] }

/-- Id 3 is found between the others, and id 5 is not looked up exactly. -/
theorem getVmaByNum_exact_gapped :
    ExactLookup gappedAreas (3 : BitVec 32).toInt ∧ ¬ExactLookup gappedAreas (5 : BitVec 32).toInt := by
  have hids : gappedAreas.mmap.Pairwise fun v w => v.vmId < w.vmId := by decide
  have hfive : ¬(gappedAreas.mmap = [] ∨
      ∃ v ∈ gappedAreas.mmap, (v.vmId : ℤ) = (5 : BitVec 32).toInt) := by decide
  exact ⟨(getVmaByNum_exact_iff hids 3).mpr (by decide),
    fun h => hfive ((getVmaByNum_exact_iff hids 5).mp h)⟩

/-- Id 1 on the one area of a new process reads through `NULL`, id -1 gets area 0. -/
theorem getVmaByNum_not_exact :
    getVmaByNum .fresh (BitVec.ofInt 32 1).toInt = none ∧
      getVmaByNum .fresh (BitVec.ofInt 32 (-1)).toInt = some (some 0) ∧
      ¬(∀ mm : Mm, mm.mmap.Pairwise (fun v w => v.vmId < w.vmId) → ∀ vmaid : BitVec 32,
        ExactLookup mm vmaid.toInt) := by
  have hnull : getVmaByNum .fresh (BitVec.ofInt 32 1).toInt = none := by
    rw [bitVec_toInt_ofInt, toInt_of_range (by norm_num) (by norm_num)]
    exact getVmaByNum_heap_pos heapIs_fresh (by norm_num)
  refine ⟨hnull, ?_, fun hall => ?_⟩
  · rw [bitVec_toInt_ofInt, toInt_of_range (by norm_num) (by norm_num)]
    exact getVmaByNum_heap heapIs_fresh (by norm_num)
  · obtain ⟨ptr, hptr, -⟩ := hall .fresh (List.pairwise_singleton _ _) (BitVec.ofInt 32 1)
    rw [hnull] at hptr
    cases hptr

/-! ### The growth of one area among others -/

/-- No address is in both half-open ranges. -/
def DisjointAreas (v w : VmArea) : Prop :=
  ∀ a, v.vmStart ≤ a → a < v.vmEnd → w.vmStart ≤ a → a < w.vmEnd → False

/-- `[sbrk, sbrk + amt)` meets the range of one of the others. -/
def Intersects (others : List VmArea) (v : VmArea) (amt : ℤ) : Prop :=
  ∃ w ∈ others, ∃ a : ℕ, v.sbrk ≤ a ∧ (a : ℤ) < v.sbrk + amt ∧ w.vmStart ≤ a ∧ a < w.vmEnd

/-- The closed interval from `sbrk` to `sbrk + amt`, its ends passed through an
`int`, meets the closed range of one of the others. -/
def Touches (others : List VmArea) (u : VmArea) (amt : ℤ) : Prop :=
  ∃ w ∈ others, w.vmStart ≤ toULong (toInt (toULong (u.sbrk + amt))) ∧
    toULong (toInt u.sbrk) ≤ w.vmEnd

/-- The area at which the lookup of `v`'s id stops. -/
def lookedUp (vmaid : ℤ) (before : List VmArea) (v : VmArea) : VmArea :=
  (before.find? fun w => vmaid ≤ toInt w.vmId).getD v

/-- The pages of the growth are in the page directory. -/
def GrowthInPgd (v : VmArea) (incSz : ℤ) : Prop :=
  pagingPgn (toInt v.vmEnd) + growthPages incSz ≤ pagingMaxPgn

/-- A call of `inc_vma_limit` on a chain with the area `v` at a given place. -/
structure ChainGrowth (caller : Pcb) (before : List VmArea) (v : VmArea) (after : List VmArea)
    (vmaid : BitVec 32) (incSz : ℤ) : Prop where
  chain : caller.mm.mmap = before ++ v :: after
  named : (v.vmId : ℤ) = vmaid.toInt
  ids : (before ++ v :: after).Pairwise fun u w => u.vmId ≠ w.vmId
  disjoint : (before ++ v :: after).Pairwise DisjointAreas
  brk : ∀ w ∈ before ++ v :: after, w.sbrk = w.vmEnd
  ulong : ∀ w ∈ before ++ v :: after, w.vmEnd < 18446744073709551616
  pos : 1 ≤ incSz
  le : incSz ≤ 1073741824
  frames : growthPages incSz ≤ caller.freeFrames.length

/-- The call succeeds exactly when the new part meets no other area, and leaves
the areas disjoint and all but `v` as they were. -/
def GrowthExact (caller : Pcb) (before : List VmArea) (v : VmArea) (after : List VmArea)
    (vmaid : BitVec 32) (incSz : ℤ) : Prop :=
  ∃ rc caller' v', incVmaLimit caller vmaid.toInt incSz = some (rc, caller') ∧
    (rc = 0 ↔ ¬Intersects (before ++ after) v (pagingPageAlignsz incSz)) ∧
    caller'.mm.mmap = before ++ v' :: after ∧ (before ++ v' :: after).Pairwise DisjointAreas

section Growth
variable {caller : Pcb} {before after : List VmArea} {v : VmArea} {vmaid : BitVec 32} {incSz : ℤ}

/-- The call, the lookup having stopped at `u`. -/
theorem incVmaLimit_cut {u : VmArea} {vmaid : ℤ} (hmm : caller.mm.mmap = before ++ u :: after)
    (hbefore : ∀ w ∈ before, toInt w.vmId < vmaid) (hu : ¬toInt u.vmId < vmaid)
    (hframes : growthPages incSz ≤ caller.freeFrames.length) :
    let brk' := toULong (u.sbrk + pagingPageAlignsz incSz)
    validateOverlapVmArea caller.mm vmaid (toInt u.sbrk) (toInt brk') < 0 ∧
        incVmaLimit caller vmaid incSz = some (-1, caller) ∨
      ¬validateOverlapVmArea caller.mm vmaid (toInt u.sbrk) (toInt brk') < 0 ∧
        ((growthPages incSz = 0 ∨ GrowthInPgd u incSz) ∧
            (∃ caller', incVmaLimit caller vmaid incSz = some (0, caller') ∧
              caller'.mm.mmap = before ++ { u with vmEnd := brk', sbrk := brk' } :: after) ∨
          ¬(growthPages incSz = 0 ∨ GrowthInPgd u incSz) ∧
            incVmaLimit caller vmaid incSz = none) := by
  intro brk'
  obtain ⟨hptr, hvma⟩ := getVmaByNum_cut hmm hbefore hu
  simp only [incVmaLimit, hptr, Option.bind_eq_bind, Option.bind_some, hvma, getVmAreaNodeAtBrk]
  by_cases hv : validateOverlapVmArea caller.mm vmaid (toInt u.sbrk) (toInt brk') < 0
  · exact Or.inl ⟨hv, if_pos hv⟩
  · refine Or.inr ⟨hv, ?_⟩
    rw [if_neg hv, vmMapRam_enough]
    · rw [← growthPages]
      unfold GrowthInPgd
      by_cases hroom : growthPages incSz = 0 ∨
          pagingPgn (toInt u.vmEnd) + growthPages incSz ≤ pagingMaxPgn
      · rw [if_pos hroom]
        refine Or.inl ⟨hroom, _, rfl, ?_⟩
        simp [Pcb.mapped, Mm.setVma, hmm, brk']
      · rw [if_neg hroom]
        exact Or.inr ⟨hroom, rfl⟩
    · exact hframes

/-! ### On a chain -/

theorem ChainGrowth.amount (h : ChainGrowth caller before v after vmaid incSz) :
    0 < pagingPageAlignsz incSz ∧ pagingPageAlignsz incSz ≤ 1073741824 ∧ 0 < growthPages incSz := by
  have hpos := h.pos
  have hle := h.le
  have halign := @pagingPageAlignsz_eq incSz (by omega) (by omega)
  have hmul := @growthPages_mul incSz (by omega)
  omega

theorem ChainGrowth.others (h : ChainGrowth caller before v after vmaid incSz) (w : VmArea) :
    w ∈ before ++ after ↔ w ∈ caller.mm.mmap ∧ w.vmId ≠ toULong vmaid.toInt := by
  have hnamed := h.named
  have hid : toULong vmaid.toInt = v.vmId := by
    have hrange := bitVec_toInt_range vmaid
    rw [← hnamed, toULong_natCast (by omega)]
  obtain ⟨-, hafter, hcross⟩ := List.pairwise_append.mp h.ids
  obtain ⟨hv, -⟩ := List.pairwise_cons.mp hafter
  rw [hid, h.chain, List.mem_append, List.mem_append, List.mem_cons]
  constructor
  · intro hw
    cases hw with
    | inl hw => exact ⟨Or.inl hw, hcross w hw v (List.mem_cons_self ..)⟩
    | inr hw => exact ⟨Or.inr (Or.inr hw), fun heq => hv w hw heq.symm⟩
  · intro hw
    obtain ⟨hmem, hne⟩ := hw
    rcases hmem with hw | rfl | hw
    · exact Or.inl hw
    · exact absurd rfl hne
    · exact Or.inr hw

theorem ChainGrowth.touches_iff (h : ChainGrowth caller before v after vmaid incSz) (u : VmArea) :
    validateOverlapVmArea caller.mm vmaid.toInt (toInt u.sbrk)
        (toInt (toULong (u.sbrk + pagingPageAlignsz incSz))) < 0 ↔
      Touches (before ++ after) u (pagingPageAlignsz incSz) := by
  have hany : validateOverlapVmArea caller.mm vmaid.toInt (toInt u.sbrk)
        (toInt (toULong (u.sbrk + pagingPageAlignsz incSz))) < 0 ↔
      (caller.mm.mmap.any fun vma => vma.vmId != toULong vmaid.toInt &&
        overlap vma.vmStart vma.vmEnd (toULong (toInt u.sbrk))
          (toULong (toInt (toULong (u.sbrk + pagingPageAlignsz incSz))))) = true := by
    unfold validateOverlapVmArea
    split_ifs with hv
    · simp [hv]
    · simp [hv]
  rw [hany, List.any_eq_true]
  unfold Touches
  refine exists_congr fun w => ?_
  rw [h.others w, and_assoc]
  simp [overlap]

/-- What is left disjoint when `v` grows and meets no other area. -/
theorem ChainGrowth.disjoint_grown (h : ChainGrowth caller before v after vmaid incSz)
    (hfree : ¬Intersects (before ++ after) v (pagingPageAlignsz incSz)) :
    (before ++ { v with
      vmEnd := toULong (v.sbrk + pagingPageAlignsz incSz)
      sbrk := toULong (v.sbrk + pagingPageAlignsz incSz) } :: after).Pairwise DisjointAreas := by
  obtain ⟨hpos, hle, -⟩ := h.amount
  have hbrk := h.brk v (List.mem_append_right _ (List.mem_cons_self ..))
  have hul := h.ulong v (List.mem_append_right _ (List.mem_cons_self ..))
  -- an address of the grown area is an old one or lies in the new part
  have hgrown : ∀ a : ℕ, a < toULong (v.sbrk + pagingPageAlignsz incSz) →
      a < v.vmEnd ∨ v.sbrk ≤ a ∧ (a : ℤ) < v.sbrk + pagingPageAlignsz incSz := by
    intro a hend
    have hle := toULong_le (x := v.sbrk + pagingPageAlignsz incSz) (by omega)
    omega
  have hnew : ∀ w ∈ before ++ after, ∀ a : ℕ, v.sbrk ≤ a →
      (a : ℤ) < v.sbrk + pagingPageAlignsz incSz → w.vmStart ≤ a → ¬a < w.vmEnd :=
    fun w hw a ha ha' hstart hend => hfree ⟨w, hw, a, ha, ha', hstart, hend⟩
  obtain ⟨hb, hva, hcross⟩ := List.pairwise_append.mp h.disjoint
  obtain ⟨hv, ha⟩ := List.pairwise_cons.mp hva
  refine List.pairwise_append.mpr ⟨hb, List.pairwise_cons.mpr ⟨fun w hw => ?_, ha⟩,
    fun w hw x hx => ?_⟩
  · intro a hstart hend hwstart hwend
    cases hgrown a hend with
    | inl hold => exact hv w hw a hstart hold hwstart hwend
    | inr hpart => exact hnew w (List.mem_append_right _ hw) a hpart.1 hpart.2 hwstart hwend
  · cases List.mem_cons.mp hx with
    | inr hx => exact hcross w hw x (List.mem_cons_of_mem _ hx)
    | inl hx =>
      subst hx
      intro a hwstart hwend hstart hend
      cases hgrown a hend with
      | inl hold => exact hcross w hw v (List.mem_cons_self ..) a hwstart hwend hstart hold
      | inr hpart => exact hnew w (List.mem_append_left _ hw) a hpart.1 hpart.2 hwstart hwend

/-- A call turned down has to be turned down. -/
theorem ChainGrowth.exact_of_refused (h : ChainGrowth caller before v after vmaid incSz)
    (hcall : incVmaLimit caller vmaid.toInt incSz = some (-1, caller)) :
    GrowthExact caller before v after vmaid incSz ↔
      Intersects (before ++ after) v (pagingPageAlignsz incSz) := by
  constructor
  · intro hexact
    obtain ⟨rc, caller', v', hcall', hrc, -⟩ := hexact
    rw [hcall] at hcall'
    obtain ⟨rfl, -⟩ := Prod.mk.inj (Option.some.inj hcall')
    by_contra hfree
    exact absurd (hrc.mpr hfree) (by norm_num)
  · intro hmeets
    exact ⟨-1, caller, v, hcall, ⟨fun h0 => absurd h0 (by norm_num), fun hfree => absurd hmeets hfree⟩,
      h.chain, h.disjoint⟩

theorem not_exact_of_undefined (hcall : incVmaLimit caller vmaid.toInt incSz = none) :
    ¬GrowthExact caller before v after vmaid incSz := by
  intro hexact
  obtain ⟨rc, caller', v', hcall', -⟩ := hexact
  rw [hcall] at hcall'
  cases hcall'

theorem lookedUp_self (hfirst : ∀ w ∈ before, toInt w.vmId < vmaid.toInt) :
    lookedUp vmaid.toInt before v = v := by
  have hnone : before.find? (fun w => vmaid.toInt ≤ toInt w.vmId) = none := by
    refine List.find?_eq_none.mpr fun w hw => ?_
    simpa using hfirst w hw
  rw [lookedUp, hnone, Option.getD_none]

theorem ChainGrowth.exact_first (h : ChainGrowth caller before v after vmaid incSz)
    (hfirst : ∀ w ∈ before, toInt w.vmId < vmaid.toInt) :
    GrowthExact caller before v after vmaid incSz ↔
      Intersects (before ++ after) v (pagingPageAlignsz incSz) ∧
          Touches (before ++ after) v (pagingPageAlignsz incSz) ∨
        ¬Intersects (before ++ after) v (pagingPageAlignsz incSz) ∧
          ¬Touches (before ++ after) v (pagingPageAlignsz incSz) ∧ GrowthInPgd v incSz := by
  obtain ⟨-, -, hpages⟩ := h.amount
  have hstop : ¬toInt v.vmId < vmaid.toInt := by
    rw [toInt_id h.named, h.named]
    exact lt_irrefl _
  have hcut := incVmaLimit_cut h.chain hfirst hstop h.frames
  dsimp only at hcut
  rw [h.touches_iff v] at hcut
  rcases hcut with ⟨htouch, hcall⟩ | ⟨htouch, ⟨hroom, caller', hcall, hmm⟩ | ⟨hroom, hcall⟩⟩
  · rw [h.exact_of_refused hcall]
    simp [htouch]
  · have hin : GrowthInPgd v incSz := hroom.resolve_left hpages.ne'
    have hexact : GrowthExact caller before v after vmaid incSz ↔
        ¬Intersects (before ++ after) v (pagingPageAlignsz incSz) := by
      constructor
      · intro hexact
        obtain ⟨rc, caller'', v', hcall', hrc, -⟩ := hexact
        rw [hcall] at hcall'
        obtain ⟨rfl, -⟩ := Prod.mk.inj (Option.some.inj hcall')
        exact hrc.mp rfl
      · intro hfree
        exact ⟨0, caller', _, hcall, ⟨fun _ => hfree, fun _ => rfl⟩, hmm, h.disjoint_grown hfree⟩
    rw [hexact]
    simp [htouch, hin]
  · have hin : ¬GrowthInPgd v incSz := fun hin => hroom (Or.inr hin)
    have hundefined := @not_exact_of_undefined _ before after v _ _ hcall
    simp [hundefined, htouch, hin]

theorem touches_small {others : List VmArea} {amt : ℤ} (hpos : 0 ≤ amt)
    (hsmall : v.sbrk + amt < 2147483648) : Touches others v amt ↔
      ∃ w ∈ others, (w.vmStart : ℤ) ≤ v.sbrk + amt ∧ v.sbrk ≤ w.vmEnd := by
  have hend : toULong (toInt (toULong (v.sbrk + amt))) = (v.sbrk + amt).toNat := by
    rw [toULong_of_nonneg (by omega) hsmall, toULong_toInt_natCast (by omega)]
  unfold Touches
  rw [hend, toULong_toInt_natCast (by omega)]
  refine exists_congr fun w => and_congr_right fun _ => and_congr_left fun _ => ?_
  omega

/-- The lookup stopped at another area: to grow that one is always wrong. -/
theorem ChainGrowth.exact_other (h : ChainGrowth caller before v after vmaid incSz)
    (hother : ¬∀ w ∈ before, toInt w.vmId < vmaid.toInt) :
    GrowthExact caller before v after vmaid incSz ↔
      Intersects (before ++ after) v (pagingPageAlignsz incSz) ∧
        Touches (before ++ after) (lookedUp vmaid.toInt before v) (pagingPageAlignsz incSz) := by
  obtain ⟨hpos, hle, -⟩ := h.amount
  push Not at hother
  obtain ⟨w, hw, hwid⟩ := hother
  have hsome : (before.find? fun w => vmaid.toInt ≤ toInt w.vmId).isSome = true :=
    List.find?_isSome.mpr ⟨w, hw, by simpa using hwid⟩
  obtain ⟨u, hfind⟩ := Option.isSome_iff_exists.mp hsome
  have hlooked : lookedUp vmaid.toInt before v = u := by rw [lookedUp, hfind, Option.getD_some]
  obtain ⟨hu, first, rest, hbefore, hfirst⟩ := List.find?_eq_some_iff_append.mp hfind
  have hchain : caller.mm.mmap = first ++ u :: (rest ++ v :: after) := by
    rw [h.chain, hbefore, List.append_assoc, List.cons_append]
  have hcut := incVmaLimit_cut hchain (fun x hx => by simpa using hfirst x hx)
    (not_lt.mpr (by simpa using hu)) h.frames
  dsimp only at hcut
  rw [h.touches_iff u] at hcut
  rw [hlooked]
  rcases hcut with ⟨htouch, hcall⟩ | ⟨htouch, ⟨-, caller', hcall, hmm⟩ | ⟨-, hcall⟩⟩
  · rw [h.exact_of_refused hcall]
    simp [htouch]
  · have hwrong : ¬GrowthExact caller before v after vmaid incSz := by
      intro hexact
      obtain ⟨rc, caller'', v', hcall', -, hmm', -⟩ := hexact
      rw [hcall] at hcall'
      obtain ⟨-, rfl⟩ := Prod.mk.inj (Option.some.inj hcall')
      rw [hmm, hbefore, List.append_assoc, List.cons_append] at hmm'
      have hsame := (List.cons.inj (List.append_cancel_left hmm')).1
      have hmem : u ∈ before ++ v :: after := by
        rw [hbefore]
        simp
      have hend := congrArg VmArea.vmEnd hsame
      rw [← h.brk u hmem] at hend
      exact toULong_add_ne hpos (by omega) hend
    simp [hwrong, htouch]
  · have hundefined := @not_exact_of_undefined _ before after v _ _ hcall
    simp [hundefined, htouch]

/-- When the growth respects the other areas. -/
theorem incVmaLimit_exact_iff (h : ChainGrowth caller before v after vmaid incSz) :
    (GrowthExact caller before v after vmaid incSz ↔
      Intersects (before ++ after) v (pagingPageAlignsz incSz) ∧
          Touches (before ++ after) (lookedUp vmaid.toInt before v) (pagingPageAlignsz incSz) ∨
        ¬Intersects (before ++ after) v (pagingPageAlignsz incSz) ∧
          ¬Touches (before ++ after) (lookedUp vmaid.toInt before v) (pagingPageAlignsz incSz) ∧
          (∀ w ∈ before, toInt w.vmId < vmaid.toInt) ∧ GrowthInPgd v incSz) ∧
    ((∀ w ∈ before, toInt w.vmId < vmaid.toInt) →
      v.sbrk + pagingPageAlignsz incSz < 2147483648 →
      (GrowthExact caller before v after vmaid incSz ↔
        Intersects (before ++ after) v (pagingPageAlignsz incSz) ∨
          (∀ w ∈ before ++ after,
            ¬((w.vmStart : ℤ) ≤ v.sbrk + pagingPageAlignsz incSz ∧ v.sbrk ≤ w.vmEnd)) ∧
          GrowthInPgd v incSz)) := by
  refine ⟨?_, fun hfirst hsmall => ?_⟩
  · by_cases hfirst : ∀ w ∈ before, toInt w.vmId < vmaid.toInt
    · rw [h.exact_first hfirst, lookedUp_self hfirst, and_iff_right hfirst]
    · rw [h.exact_other hfirst, or_iff_left fun hcond => hfirst hcond.2.2.1]
  · obtain ⟨hpos, -, -⟩ := h.amount
    rw [h.exact_first hfirst, touches_small hpos.le hsmall]
    constructor
    · intro hcond
      cases hcond with
      | inl hmeets => exact Or.inl hmeets.1
      | inr hfree => exact Or.inr ⟨fun w hw htouch => hfree.2.1 ⟨w, hw, htouch⟩, hfree.2.2⟩
    · intro hcond
      by_cases hmeets : Intersects (before ++ after) v (pagingPageAlignsz incSz)
      · obtain ⟨w, hw, a, ha, ha', hstart, hend⟩ := hmeets
        exact Or.inl ⟨⟨w, hw, a, ha, ha', hstart, hend⟩, w, hw, by omega, by omega⟩
      · obtain ⟨hfree, hin⟩ := hcond.resolve_left hmeets
        exact Or.inr ⟨hmeets, fun htouch => htouch.elim fun w hw => hfree w hw.1 hw.2, hin⟩

end Growth

/-- Three areas with free pages between them. -/
def threeAreas : Pcb where
  mm := { Mm.fresh with
    mmap := [⟨0, 0, 256, 256, []⟩, ⟨1, 512, 768, 768, []⟩, ⟨2, 1280, 1536, 1536, []⟩] }
  dev _ := ramDevice 1024

theorem threeAreas_growth {incSz : ℤ} (hpos : 1 ≤ incSz) (hle : incSz ≤ 1073741824)
    (hframes : growthPages incSz ≤ threeAreas.freeFrames.length) :
    ChainGrowth threeAreas [⟨0, 0, 256, 256, []⟩] ⟨1, 512, 768, 768, []⟩ [⟨2, 1280, 1536, 1536, []⟩]
      1 incSz where
  chain := rfl
  named := rfl
  ids := by simp
  disjoint := by
    simp only [List.cons_append, List.nil_append, List.pairwise_cons, List.mem_cons,
      List.not_mem_nil, or_false, forall_eq_or_imp, forall_eq, DisjointAreas, false_imp_iff,
      implies_true, List.Pairwise.nil, and_true]
    refine ⟨⟨?_, ?_⟩, ?_⟩ <;> omega
  brk := by simp
  ulong := by simp
  pos := hpos
  le := hle
  frames := hframes

/-- The area in the middle grows by a page, and is rightly refused three. -/
theorem incVmaLimit_exact_threeAreas :
    GrowthExact threeAreas [⟨0, 0, 256, 256, []⟩] ⟨1, 512, 768, 768, []⟩
        [⟨2, 1280, 1536, 1536, []⟩] 1 256 ∧
      GrowthExact threeAreas [⟨0, 0, 256, 256, []⟩] ⟨1, 512, 768, 768, []⟩
        [⟨2, 1280, 1536, 1536, []⟩] 1 600 := by
  have hone : pagingPageAlignsz 256 = 256 := by decide +kernel
  have hthree : pagingPageAlignsz 600 = 768 := by decide +kernel
  have hfirst : ∀ w ∈ [(⟨0, 0, 256, 256, []⟩ : VmArea)], toInt w.vmId < (1 : BitVec 32).toInt := by
    decide +kernel
  constructor
  · have h : ChainGrowth _ _ _ _ 1 256 :=
      threeAreas_growth (by norm_num) (by norm_num) (by decide +kernel)
    refine ((incVmaLimit_exact_iff h).2 hfirst (by rw [hone]; norm_num)).mpr (Or.inr ⟨?_, ?_⟩)
    · rw [hone]
      simp
    · unfold GrowthInPgd
      decide +kernel
  · have h : ChainGrowth _ _ _ _ 1 600 :=
      threeAreas_growth (by norm_num) (by norm_num) (by decide +kernel)
    refine ((incVmaLimit_exact_iff h).2 hfirst (by rw [hthree]; norm_num)).mpr (Or.inl ?_)
    rw [hthree]
    exact ⟨⟨2, 1280, 1536, 1536, []⟩, by simp, 1280, by norm_num⟩

/-- Areas `[0, 256)` and `[512, 768)`: the page between them is free, and area 0 is
not given it. -/
def twoAreas : Pcb where
  mm := { Mm.fresh with mmap := [⟨0, 0, 256, 256, []⟩, ⟨1, 512, 768, 768, []⟩] }
  dev _ := ramDevice 1024

theorem incVmaLimit_touching :
    ChainGrowth twoAreas [] ⟨0, 0, 256, 256, []⟩ [⟨1, 512, 768, 768, []⟩] 0 256 ∧
      (incVmaLimit twoAreas 0 256).map Prod.fst = some (-1) ∧
      ¬Intersects [⟨1, 512, 768, 768, []⟩] ⟨0, 0, 256, 256, []⟩ (pagingPageAlignsz 256) ∧
      ¬GrowthExact twoAreas [] ⟨0, 0, 256, 256, []⟩ [⟨1, 512, 768, 768, []⟩] 0 256 := by
  have hcall : (incVmaLimit twoAreas 0 256).map Prod.fst = some (-1) := by decide +kernel
  have hfree : ¬Intersects [⟨1, 512, 768, 768, []⟩] ⟨0, 0, 256, 256, []⟩
      (pagingPageAlignsz 256) := by
    intro hmeets
    obtain ⟨w, hw, a, -, ha, hstart, -⟩ := hmeets
    obtain rfl := List.mem_singleton.mp hw
    rw [pagingPageAlignsz_eq (by norm_num) (by norm_num)] at ha
    norm_num at ha hstart
    omega
  refine ⟨?_, hcall, hfree, fun hexact => ?_⟩
  · exact
      { chain := rfl
        named := rfl
        ids := by simp
        disjoint := by simp [DisjointAreas]; omega
        brk := by simp
        ulong := by simp
        pos := by norm_num
        le := by norm_num
        frames := by decide +kernel }
  · obtain ⟨rc, caller', v', hcall', hrc, -⟩ := hexact
    have h0 : rc = 0 := hrc.mpr hfree
    rw [show (0 : BitVec 32).toInt = 0 from rfl] at hcall'
    rw [hcall', h0] at hcall
    norm_num at hcall

end OsSim.Mem
