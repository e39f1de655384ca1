import OsSim.Mem.NodeLists

/-!
# Growing a heap on pointers

The frames come off the free list of `mram`, whose nodes are freed, and go into the new
nodes of `frm_lst`, which are lost; `area` is freed again. What is related stays related.
-/

namespace OsSim.Mem
open OsSim.Base

variable {K : Type} {o : Roots Node K} {c : PcbNodes} {a : Pcb}

/-- What a call gives on pointers and on lists. -/
def SameResult {α : Type} (o : Roots Node K) (r : α × PcbNodes) (r' : α × Pcb) : Prop :=
  r.1 = r'.1 ∧ HoldsPcb o r.2 r'.2

/-! ### Frames -/

theorem HoldsPcb.getFreefp_nil (h : HoldsPcb o c a) {d : Device}
    (hnil : (a.dev d).freeFpList = []) :
    Nodes.memphyGetFreefp (c.dev d) c.heap = some (none, c.dev d, c.heap) := by
  have hnull := (h.cells.null (.frames d)).mpr (by simp [pcbRoots, hnil])
  have hhead : (c.dev d).freeFpList = none := hnull
  rw [Nodes.memphyGetFreefp, hhead]

variable [DecidableEq K]

theorem HoldsPcb.getFreefp_cons (h : HoldsPcb o c a) {d : Device} {fpn : ℕ} {frames : List ℕ}
    (hcons : (a.dev d).freeFpList = fpn :: frames) : ∃ p heap,
      Nodes.memphyGetFreefp (c.dev d) c.heap =
        some (some fpn, { c.dev d with freeFpList := p }, heap) ∧
      HoldsPcb o ⟨c.mm, Function.update c.dev d { c.dev d with freeFpList := p }, heap⟩
        ⟨a.mm, Function.update a.dev d { a.dev d with freeFpList := frames }⟩ := by
  cases hhead : (c.dev d).freeFpList with
  | none =>
    have hnil := (h.cells.null (.frames d)).mp hhead
    simp [pcbRoots, hcons] at hnil
  | some fp =>
    obtain ⟨v, q, vs, hlist, hcell, hcells⟩ := h.cells.pop (k := .frames d) hhead
    have hvs : v :: vs = Node.framephy fpn :: frames.map Node.framephy := by
      rw [← hlist, ← List.map_cons, ← hcons]
      rfl
    obtain ⟨rfl, rfl⟩ := List.cons.inj hvs
    refine ⟨q, c.heap.clear fp, ?_, h.setFrames hcells⟩
    simp only [Nodes.memphyGetFreefp, hhead, hcell, CellHeap.free, Node.framephy?, Option.map_some,
      Option.bind_eq_bind, Option.bind_some]

/-- The loop of `alloc_pages_range` builds the list of the frames it takes. -/
theorem HoldsPcb.allocLoop (m : Allocator Node) (n : ℕ) {p : Option ℕ} (frames : List ℕ)
    (h : HoldsPcb (o.cons p (frames.map Node.framephy)) c a) : ∃ p' mram heap,
      Nodes.allocLoop m n (c.dev .mram) c.heap p =
        some ((Mem.allocLoop n (a.dev .mram) frames).1, p', mram, heap) ∧
      HoldsPcb (o.cons p' ((Mem.allocLoop n (a.dev .mram) frames).2.1.map Node.framephy))
        ⟨c.mm, Function.update c.dev .mram mram, heap⟩
        ⟨a.mm, Function.update a.dev .mram (Mem.allocLoop n (a.dev .mram) frames).2.2⟩ := by
  induction n generalizing c a p frames with
  | zero =>
    refine ⟨p, c.dev .mram, c.heap, rfl, ?_⟩
    simp only [Mem.allocLoop, Function.update_eq_self]
    exact h
  | succ n ih =>
    cases hlist : (a.dev .mram).freeFpList with
    | nil =>
      refine ⟨p, c.dev .mram, c.heap, ?_, ?_⟩
      · simp only [Nodes.allocLoop, h.getFreefp_nil hlist, Mem.allocLoop, Mem.memphyGetFreefp,
          hlist, Option.bind_eq_bind, Option.bind_some]
      · simp only [Mem.allocLoop, Mem.memphyGetFreefp, hlist, Function.update_eq_self]
        exact h
    | cons fpn rest =>
      obtain ⟨q, heap, hget, hmid⟩ := h.getFreefp_cons hlist
      have hpush := hmid.setLocal (hmid.cells.push m (.other none) (.framephy fpn))
      obtain ⟨p', mram, heap', hloop, hend⟩ := ih (fpn :: frames) hpush
      simp only [Function.update_self, Function.update_idem] at hloop hend
      refine ⟨p', mram, heap', ?_, ?_⟩
      · simp only [Nodes.allocLoop, hget, Mem.allocLoop, Mem.memphyGetFreefp, hlist,
          Option.bind_eq_bind, Option.bind_some]
        exact hloop
      · simp only [Mem.allocLoop, Mem.memphyGetFreefp, hlist]
        exact hend

theorem HoldsPcb.allocPagesRange (h : HoldsPcb o c a) (m : Allocator Node) (reqPgnum : ℤ) :
    ∃ p c', Nodes.allocPagesRange m c reqPgnum =
        some ((Mem.allocPagesRange (a.dev .mram) reqPgnum).1, p, c') ∧ c'.mm = c.mm ∧
      HoldsPcb (o.cons p ((Mem.allocPagesRange (a.dev .mram) reqPgnum).2.1.map Node.framephy)) c'
        ⟨a.mm, Function.update a.dev .mram (Mem.allocPagesRange (a.dev .mram) reqPgnum).2.2⟩ := by
  obtain ⟨p, mram, heap, hloop, hend⟩ := HoldsPcb.allocLoop m reqPgnum.toNat [] h.enter
  refine ⟨p, _, ?_, ?_, hend⟩
  · simp only [Nodes.allocPagesRange, hloop, Option.bind_eq_bind, Option.bind_some]
    rfl
  · rfl

/-! ### Growth -/

/-- The walk along the frames maps them one by one. -/
theorem vmapLoop_listAt {heap : CellHeap Node} (n : ℕ) {pgn : ℕ} {p : Option ℕ} {as frames : List ℕ}
    {pgd : ℕ → BitVec 32} (h : ListAt heap p as (frames.map Node.framephy)) :
    Option.Rel (fun r r' => r.2 = r'.2 ∧ (r.1 = 0 ↔ r'.1 = true))
      (Nodes.vmapLoop heap n pgn p pgd) (Mem.vmapLoop n pgn frames pgd) := by
  induction n generalizing pgn p as frames pgd with
  | zero =>
    rw [Nodes.vmapLoop, Mem.vmapLoop]
    exact .some ⟨rfl, by simp⟩
  | succ n ih =>
    cases frames with
    | nil =>
      obtain rfl := h.null.mpr rfl
      rw [Nodes.vmapLoop, Mem.vmapLoop]
      exact .some ⟨rfl, by simp⟩
    | cons fpn frames =>
      cases h with
      | cons hcell hrest =>
        rw [Nodes.vmapLoop, Mem.vmapLoop]
        simp only [hcell, Node.framephy?, Option.bind_eq_bind, Option.bind_some]
        split_ifs with hpgn
        · exact ih hrest
        · exact .none

theorem HoldsPcb.vmapPageRange (m : Allocator Node) {area : ℕ} {rg : VmRg} {p : Option ℕ}
    {frames : List ℕ}
    (h : HoldsPcb ((o.cons (some area) [.region rg]).cons p (frames.map Node.framephy)) c a)
    (addr pgnum : ℤ) :
    Option.Rel (fun r r' => r.1 = r'.1 ∧ r.2.mm.mmap = c.mm.mmap ∧ r'.2.mmap = a.mm.mmap ∧
        ∃ rg', HoldsPcb ((o.cons (some area) [.region rg']).cons p (frames.map Node.framephy)) r.2
          ⟨r'.2, a.dev⟩)
      (Nodes.vmapPageRange m c addr pgnum p area) (Mem.vmapPageRange a.mm addr pgnum frames) := by
  obtain ⟨as, hframes⟩ := h.cells.listAt (.other none)
  obtain ⟨q, hcell, hset⟩ := h.cells.setHead (k := .other (some none)) rfl rfl
  have hlocal : ∀ w, HoldsPcb ((o.cons (some area) [.region w]).cons p (frames.map Node.framephy))
      { c with heap := c.heap.set area ⟨.region w, q⟩ } a := by
    intro w
    have hother := h.setOther (hset (.region w))
    rwa [Roots.cons_set_some, Roots.cons_set_none] at hother
  have hloop : Option.Rel (fun r r' => r.2 = r'.2 ∧ (r.1 = 0 ↔ r'.1 = true))
      (Nodes.vmapLoop c.heap pgnum.toNat (pagingPgn addr) p a.mm.pgd)
      (Mem.vmapLoop pgnum.toNat (pagingPgn addr) frames a.mm.pgd) := vmapLoop_listAt _ hframes
  unfold Nodes.vmapPageRange Mem.vmapPageRange
  simp only [hcell, Node.region?, Option.bind_eq_bind, Option.bind_some, h.pgd, Option.map_eq_bind,
    CellHeap.store]
  refine rel_bind hloop fun r r' hr => ?_
  obtain ⟨left, pgd⟩ := r
  obtain ⟨all, pgd'⟩ := r'
  obtain ⟨rfl, hall⟩ := hr
  have harea := hlocal ⟨toULong addr,
    toULong (addr + (pgnum.toNat - left : ℕ) * pagingPagesz)⟩
  cases all with
  | true =>
    have hleft : left = 0 := hall.mpr rfl
    have hpush := harea.cells.push m (.own .pages) (.page (pagingPgn addr + pgnum.toNat))
    simp only [Function.comp, if_pos hleft, if_true]
    exact .some ⟨rfl, rfl, rfl, _, harea.setPages (enlistPgnNode a.mm.fifoPgn _) rfl hpush⟩
  | false =>
    have hleft : ¬left = 0 := fun h0 => Bool.false_ne_true (hall.mp h0)
    simp only [Function.comp, if_neg hleft, Bool.false_eq_true, if_false]
    exact .some ⟨rfl, rfl, rfl, _, harea.setPgd pgd⟩

theorem HoldsPcb.vmMapRam (m : Allocator Node) {area : ℕ} {rg : VmRg}
    (h : HoldsPcb (o.cons (some area) [.region rg]) c a) (mapstart incpgnum : ℤ) :
    Option.Rel (fun r r' => r.1 = r'.1 ∧ r.2.mm.mmap = c.mm.mmap ∧ r'.2.mm.mmap = a.mm.mmap ∧
        ∃ rg', HoldsPcb (o.cons (some area) [.region rg']) r.2 r'.2)
      (Nodes.vmMapRam m c mapstart incpgnum area) (Mem.vmMapRam a mapstart incpgnum) := by
  obtain ⟨p, c', halloc, hmm, hmid⟩ := h.allocPagesRange m incpgnum
  unfold Nodes.vmMapRam Mem.vmMapRam
  simp only [halloc, Option.bind_eq_bind, Option.bind_some]
  split_ifs with hneg
  · exact .some ⟨rfl, by rw [hmm], rfl, rg, hmid.leave⟩
  · have hmap := hmid.vmapPageRange m mapstart incpgnum
    rw [Option.map_eq_bind]
    refine rel_bind hmap fun r r' hr => ?_
    obtain ⟨-, hmmap, hmmap', rg', hend⟩ := hr
    exact .some ⟨rfl, hmmap.trans (by rw [hmm]), hmmap', rg', hend.leave⟩

theorem getVmaFrom_plain (vmaid : ℤ) (areas : List VmArea) :
    getVmaFrom vmaid (areas.map VmArea.plain) = getVmaFrom vmaid areas := by
  induction areas with
  | nil => rfl
  | cons v rest ih =>
    rw [List.map_cons, getVmaFrom, getVmaFrom, ih]
    rfl

omit [DecidableEq K] in
theorem HoldsPcb.getVmaByNum (h : HoldsPcb o c a) (vmaid : ℤ) :
    Mem.getVmaByNum c.mm.plain vmaid = Mem.getVmaByNum a.mm vmaid := by
  rw [h.mm, Mem.getVmaByNum, Mem.getVmaByNum]
  cases hmap : a.mm.mmap with
  | nil => simp [Mm.plain, hmap]
  | cons v rest =>
    have hplain : a.mm.plain.mmap = v.plain :: rest.map VmArea.plain := by simp [Mm.plain, hmap]
    rw [hplain]
    exact congrArg (Option.map some) (getVmaFrom_plain vmaid (v :: rest))

omit [DecidableEq K] in
theorem HoldsPcb.validateOverlapVmArea (h : HoldsPcb o c a) (vmaid vmastart vmaend : ℤ) :
    Mem.validateOverlapVmArea c.mm.plain vmaid vmastart vmaend =
      Mem.validateOverlapVmArea a.mm vmaid vmastart vmaend := by
  rw [h.mm, Mem.validateOverlapVmArea, Mem.validateOverlapVmArea, Mm.plain, List.any_map]
  rfl

/-- A new cell in a local variable. -/
theorem HoldsPcb.malloc (h : HoldsPcb o c a) (m : Allocator Node) (v : Node) :
    HoldsPcb (o.cons (some (m.malloc c.heap ⟨v, none⟩).1) [v])
      { c with heap := (m.malloc c.heap ⟨v, none⟩).2 } a :=
  h.enter.setLocal (h.enter.cells.push m (.other none) v)

theorem HoldsPcb.freeLocal {p : ℕ} {v : Node} (h : HoldsPcb (o.cons (some p) [v]) c a) :
    ∃ heap, c.heap.free p = some heap ∧ HoldsPcb o { c with heap := heap } a := by
  obtain ⟨w, q, vs, -, hcell, hcells⟩ := h.cells.pop (k := .other none) rfl
  refine ⟨c.heap.clear p, ?_, (h.setLocal hcells).leave⟩
  rw [CellHeap.free, hcell, Option.map_some]

theorem HoldsPcb.getVmAreaNodeAtBrk (h : HoldsPcb o c a) (m : Allocator Node) {vmaid : ℤ}
    (alignedsz : ℤ) {ptr : Option ℕ} (hptr : Mem.getVmaByNum a.mm vmaid = some ptr) :
    (c.mm.vma ptr = none ∧ a.mm.vma ptr = none ∧ ∃ heap,
      Nodes.getVmAreaNodeAtBrk m c vmaid alignedsz = some (none, { c with heap := heap }) ∧
      HoldsPcb o { c with heap := heap } a) ∨
    ∃ i v w area heap, ptr = some i ∧ c.mm.mmap[i]? = some v ∧ a.mm.mmap[i]? = some w ∧
      v.plain = w.plain ∧
      Nodes.getVmAreaNodeAtBrk m c vmaid alignedsz = some (some area, { c with heap := heap }) ∧
      HoldsPcb (o.cons (some area) [.region (Mem.getVmAreaNodeAtBrk w alignedsz)])
        { c with heap := heap } a := by
  have hnew := h.malloc m (.region ⟨0, 0⟩)
  obtain ⟨q, hcell, hset⟩ := hnew.cells.setHead (k := .other none) rfl rfl
  have hrel : Option.Rel (fun v w => v.plain = w.plain) (c.mm.vma ptr) (a.mm.vma ptr) := by
    cases ptr with
    | none => exact .none
    | some i => exact h.area i
  unfold Nodes.getVmAreaNodeAtBrk
  simp only [h.getVmaByNum, hptr, Option.bind_eq_bind, Option.bind_some]
  rcases rel_cases hrel with ⟨hv, hw⟩ | ⟨v, w, hv, hw, hplain⟩
  · rw [hv]
    exact Or.inl ⟨rfl, hw, _, rfl, hnew.leave⟩
  · cases ptr with
    | none => cases hv
    | some i =>
      have hq : q = none := by
        have hself : (m.malloc c.heap ⟨.region ⟨0, 0⟩, none⟩).2.cell
            (m.malloc c.heap ⟨.region ⟨0, 0⟩, none⟩).1 = some ⟨.region ⟨0, 0⟩, none⟩ :=
          Function.update_self ..
        exact (Cell.mk.inj (Option.some.inj (hcell.symm.trans hself))).2
      subst hq
      rw [hv]
      dsimp only at hcell
      simp only [CellHeap.store, hcell, Option.map_some, Option.bind_some, hplain]
      exact Or.inr ⟨i, v, w, _, _, rfl, hv, hw, hplain, rfl, hnew.setLocal (hset _)⟩

theorem plain_resize {v : VmAreaNodes} {w : VmArea} (h : v.plain = w.plain) (vmEnd sbrk : ℕ) :
    ({ v with vmEnd := vmEnd, sbrk := sbrk } : VmAreaNodes).plain =
      ({ w with vmEnd := vmEnd, sbrk := sbrk } : VmArea).plain := by
  simp only [VmAreaNodes.plain, VmArea.plain, VmArea.mk.injEq, and_true] at h ⊢
  exact ⟨h.1, h.2.1⟩

theorem HoldsPcb.incVmaLimit (h : HoldsPcb o c a) (m : Allocator Node) (vmaid incSz : ℤ) :
    Option.Rel (SameResult o) (Nodes.incVmaLimit m c vmaid incSz)
      (Mem.incVmaLimit a vmaid incSz) := by
  unfold Nodes.incVmaLimit Mem.incVmaLimit
  cases hptr : Mem.getVmaByNum a.mm vmaid with
  | none =>
    have harea : Nodes.getVmAreaNodeAtBrk m c vmaid (pagingPageAlignsz incSz) = none := by
      simp only [Nodes.getVmAreaNodeAtBrk, h.getVmaByNum, hptr, Option.bind_eq_bind,
        Option.bind_none]
    simp only [harea, Option.bind_eq_bind, Option.bind_none]
    exact .none
  | some ptr =>
    rcases h.getVmAreaNodeAtBrk m (pagingPageAlignsz incSz) hptr with
      ⟨hv, hw, heap, harea, hmid⟩ | ⟨i, v, w, area, heap, rfl, hv, hw, hplain, harea, hmid⟩
    · have hnum := hmid.getVmaByNum vmaid
      dsimp only at hnum
      simp only [harea, hnum, hptr, Option.bind_eq_bind, Option.bind_some, hw, Nodes.freeArea]
      exact .some ⟨rfl, hmid⟩
    · have hnum := hmid.getVmaByNum vmaid
      have hover := hmid.validateOverlapVmArea vmaid
      obtain ⟨q, hcell, -⟩ := hmid.cells.setHead (k := .other none) rfl rfl
      have hcv : c.mm.vma (some i) = some v := hv
      have haw : a.mm.vma (some i) = some w := hw
      dsimp only at hnum hover hcell
      simp only [harea, hnum, hptr, hcv, haw, hcell, hover, Node.region?, Option.bind_eq_bind,
        Option.bind_some]
      split_ifs with hov
      · exact .some ⟨rfl, hmid.leave⟩
      · have hvm : v.vmEnd = w.vmEnd := congrArg VmArea.vmEnd hplain
        let rgEnd := (Mem.getVmAreaNodeAtBrk w (pagingPageAlignsz incSz)).rgEnd
        have hgrown := hmid.setData hv hw (plain_resize hplain rgEnd rgEnd) rfl rfl
        rw [hvm]
        refine rel_bind (hgrown.vmMapRam m _ _) fun r r' hr => ?_
        obtain ⟨rc, c1⟩ := r
        obtain ⟨rc', a1⟩ := r'
        obtain ⟨rfl, hmmap, hmmap', rg', hend⟩ := hr
        obtain ⟨heap1, hfree, hfreed⟩ := hend.freeLocal
        dsimp only at hmmap hmmap' hfree hfreed
        simp only [hfree, Option.bind_some]
        split_ifs with hneg
        · have hv1 : c1.mm.mmap[i]? = some { v with vmEnd := rgEnd, sbrk := rgEnd } := by
            rw [hmmap]
            exact List.getElem?_set_self (List.getElem?_eq_some_iff.mp hv).1
          have hw1 : a1.mm.mmap[i]? = some { w with vmEnd := rgEnd, sbrk := rgEnd } := by
            rw [hmmap']
            exact List.getElem?_set_self (List.getElem?_eq_some_iff.mp hw).1
          exact .some ⟨rfl, hfreed.setData hv1 hw1 (plain_resize hplain _ _) rfl rfl⟩
        · exact .some ⟨rfl, hfreed⟩

end OsSim.Mem
