import OsSim.Mem.NodeAccess

/-!
# The calls on pointers

Each function of `libmem.c`, from what it calls up to `libread` and `libwrite`, answers on
pointers what it answers on lists.
-/

namespace OsSim.Mem
open OsSim.Base

variable {K : Type} [DecidableEq K] {o : Roots Node K} {c : PcbNodes} {a : Pcb}

/-! ### Regions -/

omit [DecidableEq K] in
theorem HoldsPcb.setSymrg (h : HoldsPcb o c a) (rgid : ℤ) (rgnode : VmRg) :
    Option.Rel (fun mm mm' => HoldsPcb o { c with mm := mm } { a with mm := mm' })
      (Nodes.setSymrg c.mm rgid rgnode) (Mem.setSymrg a.mm rgid rgnode) := by
  rw [Nodes.setSymrg, Mem.setSymrg]
  split_ifs
  · refine .some (h.data rfl rfl ?_ h.dev)
    simp only [MmNodes.plain, Mm.plain, h.pgd, h.mmap, h.symrgtbl]
  · exact .none

/-- The region found and the one that is left of it. -/
def goodFit (size : ℤ) : Node → Bool
  | .region rgit => decide (toULong size ≤ rgit.len)
  | _ => false

def shrink (size : ℤ) : Node → Node
  | .region rgit => .region { rgit with rgStart := toULong (rgit.rgStart + size) }
  | node => node

theorem takeFit_replaceFirst (size : ℤ) (regions : List VmRg) :
    takeFit size regions = none ∧
      replaceFirst (goodFit size) (shrink size) (regions.map Node.region) = none ∨
    ∃ rgit rest,
      takeFit size regions = some (⟨rgit.rgStart, toULong (rgit.rgStart + size)⟩, rest) ∧
      replaceFirst (goodFit size) (shrink size) (regions.map Node.region) =
        some (.region rgit, rest.map Node.region) := by
  induction regions with
  | nil => exact Or.inl ⟨rfl, rfl⟩
  | cons rgit regions ih =>
    rw [takeFit, List.map_cons, replaceFirst, goodFit]
    by_cases hfit : toULong size ≤ rgit.len
    · rw [if_pos hfit, if_pos (decide_eq_true hfit)]
      exact Or.inr ⟨rgit, _, rfl, rfl⟩
    · rw [if_neg hfit, if_neg (by simpa using hfit)]
      rcases ih with ⟨hnone, hnone'⟩ | ⟨rg, rest, hsome, hsome'⟩
      · exact Or.inl ⟨by rw [hnone, Option.map_none], by rw [hnone', Option.map_none]⟩
      · refine Or.inr ⟨rg, rgit :: rest, by rw [hsome, Option.map_some], ?_⟩
        rw [hsome', Option.map_some]
        rfl

theorem setVma_self {mm : MmNodes} {i : ℕ} {v : VmAreaNodes} (h : mm.mmap[i]? = some v) :
    mm.setVma i v = mm := by
  obtain ⟨hi, hv⟩ := List.getElem?_eq_some_iff.mp h
  rw [MmNodes.setVma, ← hv, List.set_getElem_self]

/-- The same region is found, or none. -/
def SameFit (o : Roots Node K) (a : Pcb) (r : Option VmRg × PcbNodes) (r' : Option (VmRg × Mm)) :
    Prop :=
  r.1 = r'.map Prod.fst ∧ HoldsPcb o r.2 { a with mm := (r'.map Prod.snd).getD a.mm }

theorem HoldsPcb.getFreeVmrgArea (h : HoldsPcb o c a) (vmaid size : ℤ) :
    Option.Rel (SameFit o a) (Nodes.getFreeVmrgArea c vmaid size)
      (Mem.getFreeVmrgArea a.mm vmaid size) := by
  unfold Nodes.getFreeVmrgArea Mem.getFreeVmrgArea
  rw [h.getVmaByNum]
  cases Mem.getVmaByNum a.mm vmaid with
  | none => exact .none
  | some ptr =>
    cases ptr with
    | none => exact .none
    | some i =>
      simp only [Option.bind_eq_bind, Option.bind_some]
      rcases rel_cases (h.area i) with ⟨hv, hw⟩ | ⟨v, w, hv, hw, hplain⟩
      · rw [hv, hw]
        exact .none
      · have hhead : (pcbRoots o c a).head (.own (.regions i)) = v.vmFreergList := by
          simp [pcbRoots, MmNodes.head, hv]
        have hlist : (pcbRoots o c a).list (.own (.regions i)) =
            w.vmFreergList.map Node.region := by
          simp [pcbRoots, Mm.list, hw]
        have hok : ∀ node ∈ (pcbRoots o c a).list (.own (.regions i)),
            Nodes.fits size node = some (goodFit size node) := by
          intro node hnode
          rw [hlist] at hnode
          obtain ⟨rg, -, rfl⟩ := List.mem_map.mp hnode
          rfl
        have hfind := h.cells.find (.own (.regions i)) (shrink size) hok
        rw [hhead, hlist] at hfind
        rw [hv, hw]
        simp only [Option.bind_some]
        rcases takeFit_replaceFirst size w.vmFreergList with
          ⟨hnone, hnone'⟩ | ⟨rgit, rest, hsome, hsome'⟩
        · rcases hfind with ⟨-, hwalk⟩ | ⟨_, _, _, _, hfound, -⟩
          · rw [hwalk, hnone]
            exact .some ⟨rfl, h⟩
          · rw [hnone'] at hfound
            cases hfound
        · rcases hfind with ⟨hnone, -⟩ | ⟨node, vs, p, q, hfound, hwalk, hcell, hcells⟩
          · rw [hsome'] at hnone
            cases hnone
          · obtain ⟨rfl, rfl⟩ := Prod.mk.inj (Option.some.inj (hsome'.symm.trans hfound))
            have hset := h.setArea (v := v) (w := { w with vmFreergList := rest }) hplain
              (List.getElem?_eq_some_iff.mp hv).1 hcells
            rw [setVma_self hv] at hset
            rw [hwalk, hsome]
            simp only [Option.bind_some, Node.region?, CellHeap.store, hcell, Option.map_some]
            exact .some ⟨rfl, hset⟩

/-- A new node is linked into the free list of an area. -/
theorem HoldsPcb.linkRegion {rgnode : ℕ} {rg : VmRg}
    (h : HoldsPcb (o.cons (some rgnode) [.region rg]) c a) {i : ℕ} {v : VmAreaNodes} {w : VmArea}
    (hv : c.mm.mmap[i]? = some v) (hw : a.mm.mmap[i]? = some w) :
    c.heap.cell rgnode = some ⟨.region rg, none⟩ ∧
      HoldsPcb o
        ⟨c.mm.setVma i { v with vmFreergList := some rgnode }, c.dev,
          c.heap.set rgnode ⟨.region rg, v.vmFreergList⟩⟩
        ⟨a.mm.setVma i { w with vmFreergList := rg :: w.vmFreergList }, a.dev⟩ := by
  have hne : PcbRoot.other (none : Option K) ≠ .own (.regions i) := by
    intro heq
    cases heq
  obtain ⟨hcell, hcells⟩ := h.cells.link hne rfl rfl
  have hhead : (pcbRoots (o.cons (some rgnode) [.region rg]) c a).head (.own (.regions i)) =
      v.vmFreergList := by
    simp [pcbRoots, MmNodes.head, hv]
  have hlist : (pcbRoots (o.cons (some rgnode) [.region rg]) c a).list (.own (.regions i)) =
      w.vmFreergList.map Node.region := by
    simp [pcbRoots, Mm.list, hw]
  rw [← pcbRoots_setOther, Roots.cons_set_none, hhead, hlist] at hcells
  have hplain : v.plain = w.plain := by
    have harea := h.area i
    rw [hv, hw] at harea
    cases harea with
    | some hp => exact hp
  refine ⟨hcell, (h.leave.enter.setArea (v := { v with vmFreergList := some rgnode })
    (w := { w with vmFreergList := rg :: w.vmFreergList }) hplain
    (List.getElem?_eq_some_iff.mp hv).1 hcells).leave⟩

theorem HoldsPcb.enlistVmFreergList {rgElmt : ℕ} {rg : VmRg}
    (h : HoldsPcb (o.cons (some rgElmt) [.region rg]) c a) :
    Option.Rel (fun r r' => r.1 = r'.1 ∧ (r'.1 ≠ 0 → r'.2 = a.mm) ∧
        HoldsPcb o r.2 { a with mm := r'.2 })
      (Nodes.enlistVmFreergList c rgElmt) (Mem.enlistVmFreergList a.mm rg) := by
  have harea := h.area 0
  unfold Nodes.enlistVmFreergList Mem.enlistVmFreergList
  cases hc : c.mm.mmap with
  | nil =>
    rw [hc] at harea
    cases ha : a.mm.mmap with
    | nil => exact .none
    | cons w rest =>
      rw [ha] at harea
      cases harea
  | cons v rest =>
    rw [hc] at harea
    cases ha : a.mm.mmap with
    | nil =>
      rw [ha] at harea
      cases harea
    | cons w rest' =>
      have hv : c.mm.mmap[0]? = some v := by rw [hc, List.getElem?_cons_zero]
      have hw : a.mm.mmap[0]? = some w := by rw [ha, List.getElem?_cons_zero]
      obtain ⟨hcell, hlink⟩ := h.linkRegion hv hw
      simp only [hcell, Node.region?, Option.bind_eq_bind, Option.bind_some, CellHeap.store,
        Option.map_some]
      have hnext : (v.vmFreergList.orElse fun _ => none) = v.vmFreergList := by
        cases v.vmFreergList <;> rfl
      split_ifs
      · exact .some ⟨rfl, fun _ => rfl, h.leave⟩
      · simp only [MmNodes.setVma, Mm.setVma, hc, ha, List.set_cons_zero] at hlink
        rw [hnext]
        exact .some ⟨rfl, fun h0 => absurd rfl h0, hlink⟩

omit [DecidableEq K] in
theorem HoldsPcb.record (h : HoldsPcb o c a) (rgid : ℤ) (rgnode : VmRg) (addr : Option ℤ) :
    Option.Rel (fun r r' => r.1 = r'.1 ∧ SameResult o r.2 r'.2)
      ((Nodes.setSymrg c.mm rgid rgnode).bind fun mm => some ((0 : ℤ), addr, { c with mm := mm }))
      ((Mem.setSymrg a.mm rgid rgnode).bind fun mm => some ((0 : ℤ), addr, { a with mm := mm })) :=
  rel_bind (h.setSymrg rgid rgnode) fun _ _ hmm => .some ⟨rfl, rfl, hmm⟩

theorem HoldsPcb.alloc (h : HoldsPcb o c a) (m : Allocator Node) (vmaid rgid size : ℤ) :
    Option.Rel (fun r r' => r.1 = r'.1 ∧ SameResult o r.2 r'.2)
      (Nodes.alloc m c vmaid rgid size) (Mem.alloc a vmaid rgid size) := by
  unfold Nodes.alloc Mem.alloc
  refine rel_bind (h.getFreeVmrgArea vmaid size) fun r r' hr => ?_
  obtain ⟨found, c1⟩ := r
  obtain ⟨hfound, hmid⟩ := hr
  dsimp only at hfound hmid
  cases r' with
  | some p =>
    obtain ⟨rgnode, mm⟩ := p
    subst hfound
    exact hmid.record rgid rgnode _
  | none =>
    subst hfound
    dsimp only [Option.map_none, Option.getD_none] at hmid ⊢
    rw [hmid.getVmaByNum]
    cases Mem.getVmaByNum a.mm vmaid with
    | none => exact .none
    | some ptr =>
      cases ptr with
      | none => exact .none
      | some i =>
        simp only [Option.bind_eq_bind, Option.bind_some]
        rcases rel_cases (hmid.area i) with ⟨hv, hw⟩ | ⟨v, w, hv, hw, hplain⟩
        · rw [hv, hw]
          exact .none
        · have hsbrk : v.sbrk = w.sbrk := congrArg VmArea.sbrk hplain
          rw [hv, hw]
          simp only [Option.bind_some, hsbrk]
          refine rel_bind (hmid.sysMemmap m _) fun r r' hr => ?_
          obtain ⟨rc, regs, c2⟩ := r
          obtain ⟨rc', regs', a2⟩ := r'
          obtain ⟨rfl, -, hgrown⟩ := hr
          dsimp only at hgrown ⊢
          split_ifs
          · exact .some ⟨rfl, rfl, hgrown⟩
          · rcases rel_cases (hgrown.area i) with ⟨hv2, hw2⟩ | ⟨v2, w2, hv2, hw2, -⟩
            · rw [hv2, hw2]
              exact .none
            · rw [hv2, hw2]
              obtain ⟨hcell, hlink⟩ := (hgrown.malloc m (.region
                (Mem.initVmRg (toInt w.sbrk) (toInt w.sbrk + pagingPageAlignsz size)))).linkRegion
                hv2 hw2
              dsimp only at hcell hlink
              simp only [Option.bind_some, Nodes.initVmRg, Nodes.enlistVmRgNode, hcell,
                Option.bind_eq_bind, CellHeap.store, Option.map_some]
              refine rel_bind (hlink.getFreeVmrgArea vmaid size) fun r r' hr => ?_
              obtain ⟨found, c3⟩ := r
              obtain ⟨hfound, hend⟩ := hr
              dsimp only at hfound hend
              cases r' with
              | none =>
                subst hfound
                exact .some ⟨rfl, rfl, hend⟩
              | some p =>
                obtain ⟨rgnode, mm⟩ := p
                subst hfound
                exact hend.record rgid rgnode _

omit [DecidableEq K] in
theorem HoldsPcb.getSymrgByid (h : HoldsPcb o c a) (rgid : ℤ) :
    Mem.getSymrgByid c.mm.plain rgid = Mem.getSymrgByid a.mm rgid := by
  rw [h.mm]
  rfl

theorem HoldsPcb.free (h : HoldsPcb o c a) (m : Allocator Node) (rgid : ℤ) :
    Option.Rel (SameResult o) (Nodes.free m c rgid) (Mem.free a rgid) := by
  unfold Nodes.free Mem.free
  split_ifs
  · exact .some ⟨rfl, h⟩
  · rw [h.getSymrgByid]
    cases Mem.getSymrgByid a.mm rgid with
    | none => exact .none
    | some found =>
      cases found with
      | none => exact .some ⟨rfl, h⟩
      | some rgnode =>
        have hnew := h.malloc m (.region (Mem.initVmRg rgnode.rgStart rgnode.rgEnd))
        simp only [Option.bind_eq_bind, Option.bind_some]
        refine rel_bind hnew.enlistVmFreergList fun r r' hr => ?_
        obtain ⟨rc, c1⟩ := r
        obtain ⟨rc', mm⟩ := r'
        obtain ⟨rfl, hsame, hend⟩ := hr
        dsimp only at hsame hend ⊢
        split_ifs with hrc
        · rw [hsame hrc] at hend
          exact .some ⟨rfl, hend⟩
        · exact .some ⟨rfl, hend⟩

/-! ### Pages -/

/-- The victim is the last page of the list. -/
theorem HoldsPcb.findVictimPage (h : HoldsPcb o c a) :
    (Mem.findVictimPage a.mm = none ∧ Nodes.findVictimPage c = some (none, c)) ∨
    ∃ pgn mm c', Mem.findVictimPage a.mm = some (pgn, mm) ∧
      Nodes.findVictimPage c = some (some pgn, c') ∧ HoldsPcb o c' { a with mm := mm } := by
  cases hpg : c.mm.fifoPgn with
  | none =>
    have hnil : a.mm.fifoPgn = [] := by
      have hnull := (h.cells.null (.own .pages)).mp hpg
      exact List.map_eq_nil_iff.mp hnull
    refine Or.inl ⟨?_, ?_⟩
    · rw [Mem.findVictimPage, hnil]
      rfl
    · rw [Nodes.findVictimPage, hpg]
  | some pg =>
    obtain ⟨prev, b, node, hwalk, hcell, hlast, hcase⟩ := h.cells.last (k := .own .pages) hpg
    have hlist : (pcbRoots o c a).list (.own .pages) = a.mm.fifoPgn.map Node.page := rfl
    rw [hlist, List.getLast?_map] at hlast
    obtain ⟨pgn, hpgn, rfl⟩ := Option.map_eq_some_iff.mp hlast
    rw [hlist, ← List.map_dropLast] at hcase
    have hvictim : Mem.findVictimPage a.mm =
        some (pgn, { a.mm with fifoPgn := a.mm.fifoPgn.dropLast }) := by
      rw [Mem.findVictimPage, hpgn, Option.map_some]
    rcases hcase with ⟨rfl, hdrop⟩ | ⟨d, e, rfl, hd, hcells⟩
    · have hcells := h.cells.forget (.own .pages)
      rw [← hdrop] at hcells
      refine Or.inr ⟨pgn, _, { c with mm := { c.mm with fifoPgn := none } }, hvictim, ?_,
        h.setPages _ h.pgd hcells⟩
      simp only [Nodes.findVictimPage, hpg, hwalk, hcell, Node.page?, Option.bind_eq_bind,
        Option.bind_some]
    · rw [← hpg] at hcells
      refine Or.inr ⟨pgn, _, { c with heap := c.heap.set d { e with next := none } }, hvictim, ?_,
        h.setPages _ h.pgd hcells⟩
      simp only [Nodes.findVictimPage, hpg, hwalk, hcell, hd, Node.page?, Option.bind_eq_bind,
        Option.bind_some, CellHeap.store, Option.map_some]

omit [DecidableEq K] in
theorem HoldsPcb.pte (h : HoldsPcb o c a) (pgn : ℕ) : c.mm.plain.pte pgn = a.mm.pte pgn := by
  rw [h.mm]
  rfl

/-- The victim is swapped out, the page takes its frame and the newest place in the list. -/
theorem HoldsPcb.mapIn (h : HoldsPcb o c a) (m : Allocator Node) (vicpgn swpfpn pgn vicfpn : ℕ) :
    let mm := c.mm.setPte vicpgn (pteSetSwap (c.mm.pgd vicpgn) 0 swpfpn)
    let mm := mm.setPte pgn (pteSetFpn (mm.pgd pgn) vicfpn)
    let amm := a.mm.setPte vicpgn (pteSetSwap (a.mm.pgd vicpgn) 0 swpfpn)
    let amm := amm.setPte pgn (pteSetFpn (amm.pgd pgn) vicfpn)
    let new := Nodes.enlistPgnNode m c.heap mm.fifoPgn pgn
    mm.pgd = amm.pgd ∧ HoldsPcb o { c with mm := { mm with fifoPgn := new.1 }, heap := new.2 }
      { a with mm := { amm with fifoPgn := Mem.enlistPgnNode amm.fifoPgn pgn } } := by
  intro mm mm1 amm amm1 new
  have hpgd : mm1.pgd = amm1.pgd := by
    simp only [mm1, amm1, mm, amm, MmNodes.setPte, Mm.setPte, h.pgd]
  have hpush := h.cells.push m (.own .pages) (.page pgn)
  exact ⟨hpgd, h.setPages (Mem.enlistPgnNode a.mm.fifoPgn pgn) hpgd hpush⟩

theorem HoldsPcb.pgGetpage (h : HoldsPcb o c a) (m : Allocator Node) (pgn : ℕ) :
    Option.Rel (fun r r' => r.1 = r'.1 ∧ SameResult o r.2 r'.2)
      (Nodes.pgGetpage m c pgn) (Mem.pgGetpage a pgn) := by
  unfold Nodes.pgGetpage Mem.pgGetpage
  rw [h.pte]
  cases a.mm.pte pgn with
  | none => exact .none
  | some pte =>
    simp only [Option.bind_eq_bind, Option.bind_some]
    by_cases hpresent : pagingPagePresent pte = true
    · rw [if_pos hpresent, if_pos hpresent]
      exact .some ⟨rfl, rfl, h⟩
    · rw [if_neg hpresent, if_neg hpresent]
      rcases h.findVictimPage with ⟨hnone, hnone'⟩ | ⟨vicpgn, mm, c1, hsome, hsome', hmid⟩
      · rw [hnone, hnone']
        exact .none
      · rw [hsome, hsome']
        simp only [Option.bind_some]
        cases hlist : (a.dev .activeMswp).freeFpList with
        | nil =>
          have hget : Mem.memphyGetFreefp (a.dev .activeMswp) = none := by
            rw [Mem.memphyGetFreefp, hlist]
          rw [hmid.getFreefp_nil hlist, hget]
          exact .none
        | cons swpfpn frames =>
          have hget : Mem.memphyGetFreefp (a.dev .activeMswp) =
              some (swpfpn, { a.dev .activeMswp with freeFpList := frames }) := by
            rw [Mem.memphyGetFreefp, hlist]
          obtain ⟨q, heap, hpop, hswap⟩ := hmid.getFreefp_cons hlist
          have hvic := hswap.pte vicpgn
          dsimp only at hvic
          rw [hpop, hget]
          simp only [Option.bind_some, hvic]
          cases mm.pte vicpgn with
          | none => exact .none
          | some vicpte =>
            simp only [Option.bind_some]
            refine rel_bind (hswap.sysMemmap m _) fun r r' hr => ?_
            obtain ⟨rc, regs, c2⟩ := r
            obtain ⟨rc', regs', a2⟩ := r'
            obtain ⟨rfl, -, hout⟩ := hr
            dsimp only at hout ⊢
            by_cases hneg : rc < 0
            · rw [if_pos hneg, if_pos hneg]
              exact .some ⟨rfl, rfl, hout⟩
            · rw [if_neg hneg, if_neg hneg]
              refine rel_bind (hout.sysMemmap m _) fun r r' hr => ?_
              obtain ⟨rc, regs, c3⟩ := r
              obtain ⟨rc', regs', a3⟩ := r'
              obtain ⟨rfl, -, hin⟩ := hr
              dsimp only at hin ⊢
              by_cases hneg : rc < 0
              · rw [if_pos hneg, if_pos hneg]
                exact .some ⟨rfl, rfl, hin⟩
              · rw [if_neg hneg, if_neg hneg]
                obtain ⟨hpgd, hend⟩ := hin.mapIn m vicpgn swpfpn pgn (pagingFpn vicpte)
                exact .some ⟨rfl, congrArg (fun pgd => some (pagingFpn (pgd pgn))) hpgd, hend⟩

theorem HoldsPcb.pgGetval (h : HoldsPcb o c a) (m : Allocator Node) (addr : ℤ) :
    Option.Rel (fun r r' => r.1 = r'.1 ∧ SameResult o r.2 r'.2)
      (Nodes.pgGetval m c addr) (Mem.pgGetval a addr) := by
  unfold Nodes.pgGetval Mem.pgGetval
  refine rel_bind (h.pgGetpage m _) fun r r' hr => ?_
  obtain ⟨rc, fpn, c1⟩ := r
  obtain ⟨rc', fpn', a1⟩ := r'
  obtain ⟨rfl, rfl, hpage⟩ := hr
  dsimp only at hpage ⊢
  by_cases hrc : rc ≠ 0
  · rw [if_pos hrc, if_pos hrc]
    exact .some ⟨rfl, rfl, hpage⟩
  · rw [if_neg hrc, if_neg hrc]
    cases fpn with
    | none => exact .none
    | some fpn =>
      simp only [Option.bind_eq_bind, Option.bind_some]
      refine rel_bind (hpage.sysMemmap m _) fun r r' hr => ?_
      obtain ⟨rc, regs, c2⟩ := r
      obtain ⟨rc', regs', a2⟩ := r'
      obtain ⟨rfl, rfl, hread⟩ := hr
      dsimp only at hread ⊢
      by_cases hneg : rc < 0
      · rw [if_pos hneg, if_pos hneg]
        exact .some ⟨rfl, rfl, hread⟩
      · rw [if_neg hneg, if_neg hneg]
        exact .some ⟨rfl, rfl, hread⟩

theorem HoldsPcb.pgSetval (h : HoldsPcb o c a) (m : Allocator Node) (addr : ℤ) (value : Byte) :
    Option.Rel (SameResult o) (Nodes.pgSetval m c addr value) (Mem.pgSetval a addr value) := by
  unfold Nodes.pgSetval Mem.pgSetval
  refine rel_bind (h.pgGetpage m _) fun r r' hr => ?_
  obtain ⟨rc, fpn, c1⟩ := r
  obtain ⟨rc', fpn', a1⟩ := r'
  obtain ⟨rfl, rfl, hpage⟩ := hr
  dsimp only at hpage ⊢
  by_cases hrc : rc ≠ 0
  · rw [if_pos hrc, if_pos hrc]
    exact .some ⟨rfl, hpage⟩
  · rw [if_neg hrc, if_neg hrc]
    cases fpn with
    | none => exact .none
    | some fpn =>
      simp only [Option.bind_eq_bind, Option.bind_some]
      refine rel_bind (hpage.sysMemmap m _) fun r r' hr => ?_
      obtain ⟨rc, regs, c2⟩ := r
      obtain ⟨rc', regs', a2⟩ := r'
      obtain ⟨rfl, rfl, hwrite⟩ := hr
      dsimp only at hwrite ⊢
      by_cases hneg : rc < 0
      · rw [if_pos hneg, if_pos hneg]
        exact .some ⟨rfl, hwrite⟩
      · rw [if_neg hneg, if_neg hneg]
        exact rel_bind (hwrite.memphyWrite .mram _ _) fun r r' hr => .some ⟨rfl, hr.2⟩

/-! ### The library calls -/

theorem HoldsPcb.read (h : HoldsPcb o c a) (m : Allocator Node) (vmaid rgid offset : ℤ) :
    Option.Rel (fun r r' => r.1 = r'.1 ∧ SameResult o r.2 r'.2)
      (Nodes.read m c vmaid rgid offset) (Mem.read a vmaid rgid offset) := by
  unfold Nodes.read Mem.read
  rw [h.getSymrgByid, h.getVmaByNum]
  refine rel_bind_self _ fun currg => rel_bind_self _ fun curVma => ?_
  cases currg with
  | none => exact .some ⟨rfl, rfl, h⟩
  | some currg =>
    cases curVma with
    | none => exact .some ⟨rfl, rfl, h⟩
    | some i =>
      -- the address is kept closed: unfolding it would evaluate `2 ^ 64`
      dsimp only
      generalize toInt (toULong (currg.rgStart + offset)) = addr
      exact rel_bind (h.pgGetval m addr) fun r r' hr => .some ⟨rfl, hr.2.1, hr.2.2⟩

theorem HoldsPcb.write (h : HoldsPcb o c a) (m : Allocator Node) (vmaid rgid offset : ℤ)
    (value : Byte) : Option.Rel (SameResult o) (Nodes.write m c vmaid rgid offset value)
      (Mem.write a vmaid rgid offset value) := by
  unfold Nodes.write Mem.write
  rw [h.getSymrgByid, h.getVmaByNum]
  refine rel_bind_self _ fun currg => rel_bind_self _ fun curVma => ?_
  cases currg with
  | none => exact .some ⟨rfl, h⟩
  | some currg =>
    cases curVma with
    | none => exact .some ⟨rfl, h⟩
    | some i =>
      dsimp only
      generalize toInt (toULong (currg.rgStart + offset)) = addr
      exact rel_bind (h.pgSetval m addr value) fun r r' hr => .some ⟨rfl, hr.2⟩

theorem HoldsPcb.liballoc (h : HoldsPcb o c a) (m : Allocator Node) (size regIndex : BitVec 32) :
    Option.Rel (SameResult o) (Nodes.liballoc m c size regIndex) (Mem.liballoc a size regIndex) :=
  rel_map (h.alloc m 0 regIndex.toInt size.toInt) fun _ _ hr => ⟨hr.1, hr.2.2⟩

theorem HoldsPcb.libread (h : HoldsPcb o c a) (m : Allocator Node) (source offset : BitVec 32) :
    Option.Rel (fun r r' => r.1 = r'.1 ∧ SameResult o r.2 r'.2)
      (Nodes.libread m c source offset) (Mem.libread a source offset) :=
  rel_map (h.read m 0 source.toInt offset.toInt) fun _ _ hr =>
    ⟨hr.1, congrArg (Option.map (BitVec.signExtend 32)) hr.2.1, hr.2.2⟩

/-- A call on pointers answers what it answers on lists, or both are undefined. -/
theorem HoldsPcb.memCall (h : HoldsPcb o c a) (m : Allocator Node) (op : MemOp) :
    Option.Rel (SameResult o) (Nodes.memCall m c op) (Mem.memCall a op) := by
  cases op with
  | alloc size regIndex =>
    exact rel_map (h.liballoc m size regIndex) fun r r' hr =>
      ⟨congrArg (fun rc => (⟨rc, none⟩ : MemRet)) hr.1, hr.2⟩
  | free regIndex =>
    exact rel_map (h.free m regIndex.toInt) fun r r' hr =>
      ⟨congrArg (fun rc => (⟨rc, none⟩ : MemRet)) hr.1, hr.2⟩
  | read source offset =>
    refine rel_map (h.libread m source offset) fun r r' hr => ⟨?_, hr.2.2⟩
    obtain ⟨rc, destination, c1⟩ := r
    obtain ⟨rc', destination', a1⟩ := r'
    obtain ⟨rfl, rfl, -⟩ := hr
    rfl
  | write data destination offset =>
    exact rel_map (h.write m 0 destination.toInt offset.toInt data) fun r r' hr =>
      ⟨congrArg (fun rc => (⟨rc, none⟩ : MemRet)) hr.1, hr.2⟩
  | memmap regs =>
    exact rel_map (h.sysMemmap m regs) fun r r' hr =>
      ⟨congrArg (fun rc => (⟨rc, none⟩ : MemRet)) hr.1, hr.2.2⟩

end OsSim.Mem
