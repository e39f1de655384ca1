import OsSim.Mem.Frames

/-!
# Page faults (libmem.c:196-283)

What `pg_getpage` owes a well-formed process, and when it delivers. The test of
`PRESENT` does not tell a resident page from a swapped one, since `pte_set_swap`
sets that bit too (`mm.c:60`): an access to a swapped page finds it "present"
and reads a frame number out of its swap offset.
-/

namespace OsSim.Mem
open OsSim.Base

/-- The pages below `vm_end`. -/
def Pcb.pageCount (proc : Pcb) : ℕ :=
  match proc.mm.mmap with
  | [] => 0
  | v :: _ => (v.vmEnd + 255) / pagingPagesz

/-- Last set by `pte_set_fpn`, to a frame of `mram`. -/
def Pcb.ResidentAt (proc : Pcb) (n fpn : ℕ) : Prop :=
  fpn < 8192 ∧ fpn < frameCount (proc.dev .mram) ∧ ∃ old, proc.mm.pgd n = pteSetFpn old fpn

/-- Last set by `pte_set_swap`, to a frame of `active_mswp`. -/
def Pcb.SwappedAt (proc : Pcb) (n swpoff : ℕ) : Prop :=
  swpoff < 2097152 ∧ swpoff < frameCount (proc.dev .activeMswp) ∧
    ∃ old, proc.mm.pgd n = pteSetSwap old 0 swpoff

structure WellFormed (proc : Pcb) : Prop where
  inPgd : proc.pageCount ≤ pagingMaxPgn
  each : ∀ n < proc.pageCount, (∃ f, proc.ResidentAt n f) ∨ ∃ o, proc.SwappedAt n o
  ownFrame : ∀ n < proc.pageCount, ∀ m < proc.pageCount,
    pteSlot (proc.mm.pgd n) = pteSlot (proc.mm.pgd m) → n = m
  freeSwap : (proc.dev .activeMswp).freeFpList.Nodup ∧
    ∀ o ∈ (proc.dev .activeMswp).freeFpList, o < frameCount (proc.dev .activeMswp) ∧
      ∀ n < proc.pageCount, pteSlot (proc.mm.pgd n) ≠ some (.activeMswp, o)
  fifo : proc.mm.fifoPgn.Nodup ∧
    ∀ n, n ∈ proc.mm.fifoPgn ↔ n < proc.pageCount ∧ ∃ f, proc.ResidentAt n f

/-- Byte `k` of page `n`, wherever the page lives. -/
def Pcb.pageByte (proc : Pcb) (n k : ℕ) : Option Byte :=
  (pteSlot (proc.mm.pgd n)).map fun slot =>
    (proc.dev slot.1).storage (slot.2 * pagingPagesz + k)

/-- What an access to page `pgn` must do. -/
def FaultPreserves (proc : Pcb) (pgn : ℕ) : Prop :=
  ∃ fpn proc', pgGetpage proc pgn = some (0, some fpn, proc') ∧ proc'.ResidentAt pgn fpn ∧
    (∀ n < proc.pageCount, ∀ k < pagingPagesz, proc'.pageByte n k = proc.pageByte n k) ∧
    WellFormed proc'

theorem Pcb.ResidentAt.pte {proc : Pcb} {n fpn : ℕ} (h : proc.ResidentAt n fpn) :
    pagingPagePresent (proc.mm.pgd n) = true ∧ pagingPageSwapped (proc.mm.pgd n) = false ∧
      pagingFpn (proc.mm.pgd n) = fpn := by
  obtain ⟨hfit, -, old, hpte⟩ := h
  rw [hpte, pagingFpn_pteSetFpn, Nat.mod_eq_of_lt hfit]
  exact ⟨pagingPagePresent_pteSetFpn .., pagingPageSwapped_pteSetFpn .., rfl⟩

theorem Pcb.SwappedAt.pte {proc : Pcb} {n o : ℕ} (h : proc.SwappedAt n o) :
    pagingPagePresent (proc.mm.pgd n) = true ∧ pagingPageSwapped (proc.mm.pgd n) = true := by
  obtain ⟨-, -, old, hpte⟩ := h
  rw [hpte]
  exact ⟨pagingPagePresent_pteSetSwap .., pagingPageSwapped_pteSetSwap ..⟩

/-- A mapped page is never brought in: the access changes nothing. -/
theorem WellFormed.pgGetpage_eq {proc : Pcb} (h : WellFormed proc) {pgn : ℕ}
    (hpgn : pgn < proc.pageCount) :
    pgGetpage proc pgn = some (0, some (pagingFpn (proc.mm.pgd pgn)), proc) := by
  refine pgGetpage_present (hpgn.trans_le h.inPgd) ?_
  rcases h.each pgn hpgn with ⟨f, hf⟩ | ⟨o, ho⟩
  · exact hf.pte.1
  · exact ho.pte.1

theorem not_faultPreserves_of_swapped {proc : Pcb} (h : WellFormed proc) {pgn : ℕ}
    (hpgn : pgn < proc.pageCount) (hswapped : pagingPageSwapped (proc.mm.pgd pgn) = true) :
    ¬FaultPreserves proc pgn := by
  rintro ⟨fpn, proc', hcall, hres, -⟩
  rw [h.pgGetpage_eq hpgn] at hcall
  simp only [Option.some.injEq, Prod.mk.injEq] at hcall
  obtain ⟨-, -, rfl⟩ := hcall
  simp [hres.pte.2.1] at hswapped

/-- For every well-formed process the access preserves every page exactly when
the page it is about is resident; a free swap frame and a victim do not help. -/
theorem faultPreserves_iff_resident {proc : Pcb} (h : WellFormed proc) {pgn : ℕ}
    (hpgn : pgn < proc.pageCount) : FaultPreserves proc pgn ↔ ∃ f, proc.ResidentAt pgn f := by
  constructor
  · intro hpres
    rcases h.each pgn hpgn with hf | ⟨o, ho⟩
    · exact hf
    · exact absurd hpres (not_faultPreserves_of_swapped h hpgn ho.pte.2)
  · rintro ⟨f, hf⟩
    refine ⟨f, proc, ?_, hf, fun _ _ _ _ => rfl, h⟩
    rw [h.pgGetpage_eq hpgn, hf.pte.2.2]

/-- Page 0 in the only RAM frame, page 1 in swap frame 0, swap frame 1 free. -/
def onePageOut : Pcb where
  mm :=
    { pgd := fun n => if n = 0 then pteSetFpn 0 0 else pteSetSwap 0 0 0
      mmap := [⟨0, 0, 512, 512, []⟩]
      symrgtbl := fun _ => ⟨0, 0⟩
      fifoPgn := [0] }
  dev
    | .mram => { ramDevice 256 with freeFpList := [] }
    | .activeMswp => { ramDevice 512 with freeFpList := [1] }

theorem onePageOut_resident : onePageOut.ResidentAt 0 0 := ⟨by decide, by decide, 0, rfl⟩

theorem onePageOut_swapped : onePageOut.SwappedAt 1 0 := ⟨by decide, by decide, 0, rfl⟩

theorem onePageOut_wellFormed : WellFormed onePageOut := by
  have hcount : onePageOut.pageCount = 2 := rfl
  have hcases : ∀ n < onePageOut.pageCount, n = 0 ∨ n = 1 := fun n hn => by omega
  refine ⟨by decide, fun n hn => ?_, fun n hn m hm heq => ?_, ⟨by decide, fun o ho => ?_⟩,
    by decide, fun n => ?_⟩
  · rcases hcases n hn with rfl | rfl
    · exact Or.inl ⟨0, onePageOut_resident⟩
    · exact Or.inr ⟨0, onePageOut_swapped⟩
  · rcases hcases n hn with rfl | rfl <;> rcases hcases m hm with rfl | rfl
    · rfl
    · exact absurd heq (by decide)
    · exact absurd heq (by decide)
    · rfl
  · obtain rfl : o = 1 := List.mem_singleton.mp ho
    refine ⟨by decide, fun n hn => ?_⟩
    rcases hcases n hn with rfl | rfl <;> decide
  · constructor
    · intro hn
      obtain rfl : n = 0 := List.mem_singleton.mp hn
      exact ⟨by decide, 0, onePageOut_resident⟩
    · rintro ⟨hn, f, hf⟩
      rcases hcases n hn with rfl | rfl
      · exact List.mem_singleton.mpr rfl
      · exact absurd hf.pte.2.1 (by decide)

theorem resident_page_preserved : FaultPreserves onePageOut 0 :=
  (faultPreserves_iff_resident onePageOut_wellFormed (by decide)).mpr ⟨0, onePageOut_resident⟩

/-- The access to page 1 answers frame 0, which is page 0's, and page 1 stays in
the swap. -/
theorem swapped_page_not_brought_in :
    WellFormed onePageOut ∧ (∃ n < onePageOut.pageCount, ∃ f, onePageOut.ResidentAt n f) ∧
      (onePageOut.dev .activeMswp).freeFpList ≠ [] ∧ 1 < onePageOut.pageCount ∧
      ¬FaultPreserves onePageOut 1 :=
  ⟨onePageOut_wellFormed, ⟨0, by decide, 0, onePageOut_resident⟩, by decide, by decide,
    not_faultPreserves_of_swapped onePageOut_wellFormed (by decide) onePageOut_swapped.pte.2⟩

end OsSim.Mem
