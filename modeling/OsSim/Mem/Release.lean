import OsSim.Mem.Frames

/-!
# Giving the frames of a process back (libmem.c:430-458)

`free_pcb_memph` pushes one frame for each of the `PAGING_MAX_PGN` entries. Its
test of `PRESENT` is the wrong way round: the entries that are not present go to
the RAM, all others, resident or swapped out, to the swap. What it pushes is
compared with what the process owns.
-/

namespace OsSim.Mem
open OsSim.Base

/-- One round of `free_pcb_memph`. -/
def freePage (caller : Pcb) (pagenum : ℕ) : Pcb :=
  let pte := caller.mm.pgd pagenum
  if pagingPagePresent pte = false then
    let mram := memphyPutFreefp (caller.dev .mram) (pagingFpn pte)
    { caller with dev := Function.update caller.dev .mram mram }
  else
    let activeMswp := memphyPutFreefp (caller.dev .activeMswp) (pagingPteSwp pte)
    { caller with dev := Function.update caller.dev .activeMswp activeMswp }

/-- `free_pcb_memph` (`libmem.c:435-458`). -/
def freePcbMemph (caller : Pcb) : ℤ × Pcb :=
  (0, (List.range pagingMaxPgn).foldl freePage caller)

/-- The frame pushed on a device for an entry. -/
def pushedFrame (d : Device) (pte : BitVec 32) : Option ℕ :=
  match d with
  | .mram => if pagingPagePresent pte then none else some (pagingFpn pte)
  | .activeMswp => if pagingPagePresent pte then some (pagingPteSwp pte) else none

/-- The frame of a device that an entry holds. -/
def heldFrame (d : Device) (pte : BitVec 32) : Option ℕ :=
  (pteSlot pte).bind fun slot => if slot.1 = d then some slot.2 else none

/-- Unmapped, resident or swapped out, each frame in one page only and not free. -/
structure PagesHeld (proc : Pcb) : Prop where
  each : ∀ n < pagingMaxPgn, proc.mm.pgd n = 0 ∨ pagingPagePresent (proc.mm.pgd n) = true
  distinct : ∀ n < pagingMaxPgn, ∀ k < pagingMaxPgn, n ≠ k → ∀ slot,
    pteSlot (proc.mm.pgd n) = some slot → pteSlot (proc.mm.pgd k) ≠ some slot
  notFree : ∀ n < pagingMaxPgn, ∀ slot, pteSlot (proc.mm.pgd n) = some slot →
    slot.2 ∉ (proc.dev slot.1).freeFpList

/-- The frames that the pages hold join the free lists of their devices, each
once, and nothing else does. -/
def ReleasesExactly (proc : Pcb) : Prop :=
  ∀ d, (((freePcbMemph proc).2.dev d).freeFpList).Perm
    ((List.range pagingMaxPgn).filterMap (fun n => heldFrame d (proc.mm.pgd n)) ++
      (proc.dev d).freeFpList)

/-! ### What is pushed -/

theorem freePage_mm (caller : Pcb) (pagenum : ℕ) : (freePage caller pagenum).mm = caller.mm := by
  unfold freePage
  dsimp only
  split_ifs <;> rfl

theorem freePage_free (caller : Pcb) (pagenum : ℕ) (d : Device) :
    ((freePage caller pagenum).dev d).freeFpList =
      (pushedFrame d (caller.mm.pgd pagenum)).toList ++ (caller.dev d).freeFpList := by
  unfold freePage pushedFrame
  cases hpresent : pagingPagePresent (caller.mm.pgd pagenum) with
  | false => cases d <;> simp [hpresent, memphyPutFreefp]
  | true => cases d <;> simp [hpresent, memphyPutFreefp]

theorem freePages_free (pages : List ℕ) (caller : Pcb) (d : Device) :
    ((pages.foldl freePage caller).dev d).freeFpList =
      (pages.filterMap fun n => pushedFrame d (caller.mm.pgd n)).reverse ++
        (caller.dev d).freeFpList := by
  induction pages generalizing caller with
  | nil => rfl
  | cons n pages ih =>
    rw [List.foldl_cons, ih, freePage_mm, freePage_free]
    cases hpushed : pushedFrame d (caller.mm.pgd n) with
    | none => simp [hpushed]
    | some fpn => simp [hpushed]

theorem freePcbMemph_snd (caller : Pcb) :
    (freePcbMemph caller).2 = (List.range pagingMaxPgn).foldl freePage caller := by
  unfold freePcbMemph
  -- keeps the kernel from unrolling the list
  generalize List.range pagingMaxPgn = pages
  rfl

theorem freePcbMemph_free (caller : Pcb) (d : Device) :
    ((freePcbMemph caller).2.dev d).freeFpList =
      ((List.range pagingMaxPgn).filterMap fun n => pushedFrame d (caller.mm.pgd n)).reverse ++
        (caller.dev d).freeFpList := by
  rw [freePcbMemph_snd]
  exact freePages_free _ caller d

theorem releasesExactly_iff_perm (proc : Pcb) : ReleasesExactly proc ↔ ∀ d,
    ((List.range pagingMaxPgn).filterMap fun n => pushedFrame d (proc.mm.pgd n)).Perm
      ((List.range pagingMaxPgn).filterMap fun n => heldFrame d (proc.mm.pgd n)) := by
  unfold ReleasesExactly
  refine forall_congr' fun d => ?_
  rw [freePcbMemph_free, List.perm_append_right_iff, List.perm_comm, List.perm_reverse, List.perm_comm]

/-! ### What is held -/

/-- `PRESENT` and `SWAPPED`. -/
def SwappedPte (pte : BitVec 32) : Prop :=
  pagingPagePresent pte = true ∧ pagingPageSwapped pte = true

/-- A page swapped out is pushed where it is held. -/
theorem SwappedPte.pushed_eq_held {pte : BitVec 32} (h : SwappedPte pte) (d : Device) :
    pushedFrame d pte = heldFrame d pte := by
  unfold pushedFrame heldFrame pteSlot
  rw [h.1, h.2]
  cases d <;> rfl

/-- Every page is pushed on one device; the swap gets one for each page that holds a
frame of either. -/
theorem pushed_length (pgd : ℕ → BitVec 32) (pages : List ℕ) :
    (pages.filterMap fun n => pushedFrame .activeMswp (pgd n)).length =
        (pages.filterMap fun n => heldFrame .activeMswp (pgd n)).length +
          (pages.filterMap fun n => heldFrame .mram (pgd n)).length ∧
      (pages.filterMap fun n => pushedFrame .mram (pgd n)).length +
        (pages.filterMap fun n => pushedFrame .activeMswp (pgd n)).length = pages.length := by
  induction pages with
  | nil => exact ⟨rfl, rfl⟩
  | cons n pages ih =>
    obtain ⟨hswap, hall⟩ := ih
    have hpushed (d : Device) : ((n :: pages).filterMap fun n => pushedFrame d (pgd n)).length =
        (pushedFrame d (pgd n)).toList.length +
          (pages.filterMap fun n => pushedFrame d (pgd n)).length := by
      cases h : pushedFrame d (pgd n) <;> simp [h, Nat.add_comm]
    have hheld (d : Device) : ((n :: pages).filterMap fun n => heldFrame d (pgd n)).length =
        (heldFrame d (pgd n)).toList.length +
          (pages.filterMap fun n => heldFrame d (pgd n)).length := by
      cases h : heldFrame d (pgd n) <;> simp [h, Nat.add_comm]
    have hone : (pushedFrame .activeMswp (pgd n)).toList.length =
        (heldFrame .activeMswp (pgd n)).toList.length + (heldFrame .mram (pgd n)).toList.length ∧
        (pushedFrame .mram (pgd n)).toList.length +
          (pushedFrame .activeMswp (pgd n)).toList.length = 1 := by
      unfold pushedFrame heldFrame pteSlot
      cases pagingPagePresent (pgd n) <;> cases pagingPageSwapped (pgd n) <;> exact ⟨rfl, rfl⟩
    simp only [hpushed, hheld, List.length_cons]
    omega

/-- The free lists get back exactly the frames of the process when all of its pages
are swapped out, and only then. -/
theorem freePcbMemph_exact_iff (proc : Pcb) :
    ReleasesExactly proc ↔ ∀ n < pagingMaxPgn, SwappedPte (proc.mm.pgd n) := by
  rw [releasesExactly_iff_perm]
  constructor
  · intro hperm
    have hmram := (hperm .mram).length_eq
    have hmswp := (hperm .activeMswp).length_eq
    obtain ⟨hswap, hall⟩ := pushed_length proc.mm.pgd (List.range pagingMaxPgn)
    have hfull : ((List.range pagingMaxPgn).filterMap fun n =>
        heldFrame .activeMswp (proc.mm.pgd n)).length = (List.range pagingMaxPgn).length := by
      omega
    rw [List.length_filterMap_eq_countP, List.countP_eq_length] at hfull
    intro n hn
    have hheld := hfull n (List.mem_range.mpr hn)
    unfold SwappedPte
    unfold heldFrame pteSlot at hheld
    cases hpresent : pagingPagePresent (proc.mm.pgd n) with
    | false => simp [hpresent] at hheld
    | true =>
      cases hswapped : pagingPageSwapped (proc.mm.pgd n) with
      | false => simp [hpresent, hswapped] at hheld
      | true => exact ⟨rfl, rfl⟩
  · intro hswapped d
    rw [List.filterMap_congr fun n hn => (hswapped n (List.mem_range.mp hn)).pushed_eq_held d]

/-- One page, resident in RAM frame 0. -/
def onePage : Pcb where
  mm := { Mm.fresh with pgd := Function.update (fun _ => 0) 0 (pteSetFpn 0 0) }
  dev := Function.update (fun _ => ramDevice 1024) .mram { ramDevice 1024 with freeFpList := [1, 2, 3] }

/-- Frame 0 of the RAM goes to the swap's list, where it is free already, and once for
each unmapped page to the RAM's. -/
theorem freePcbMemph_not_exact : PagesHeld onePage ∧ ¬ReleasesExactly onePage := by
  have hpgd : ∀ n, 0 < n → onePage.mm.pgd n = 0 := by
    intro n hn
    change Function.update (fun _ => (0 : BitVec 32)) 0 (pteSetFpn 0 0) n = 0
    exact Function.update_of_ne hn.ne' _ _
  have hslot : ∀ n slot, pteSlot (onePage.mm.pgd n) = some slot → n = 0 ∧ slot = (.mram, 0) := by
    intro n slot h
    by_cases hn : n = 0
    · subst hn
      exact ⟨rfl, (Option.some.inj h).symm⟩
    · rw [hpgd n (by omega), pteSlot_zero] at h
      cases h
  refine ⟨⟨fun n _ => ?_, fun n _ k _ hne slot hn hk => ?_, fun n _ slot h => ?_⟩, fun hexact => ?_⟩
  · by_cases hn : n = 0
    · subst hn
      exact Or.inr (by decide)
    · exact Or.inl (hpgd n (by omega))
  · exact hne ((hslot n slot hn).1.trans (hslot k slot hk).1.symm)
  · obtain ⟨-, rfl⟩ := hslot n slot h
    simp [onePage]
  · -- nothing held in the swap, but the resident page's entry is pushed there
    have hperm := (releasesExactly_iff_perm _).mp hexact .activeMswp
    have hmem := hperm.mem_iff.mp
      (List.mem_filterMap.mpr ⟨0, List.mem_range.mpr (by norm_num), rfl⟩)
    obtain ⟨n, -, hheld⟩ := List.mem_filterMap.mp hmem
    obtain ⟨slot, hn, hframe⟩ := Option.bind_eq_some_iff.mp hheld
    obtain ⟨-, rfl⟩ := hslot n slot hn
    cases hframe

end OsSim.Mem
