import OsSim.Mem.Nodes

/-!
# The lists behind the pointers

`HoldsPcb` relates the memory of a process on pointers to the one on lists. The roots
are the lists of the two devices, those of the process, and whatever other pointers there
are: the lists of the other processes and the local variables of the calls under way.
-/

namespace OsSim.Mem
open OsSim.Base

/-- The pointers of an `mm_struct`. -/
inductive MmRoot where
  | pages
  | regions (i : ℕ)
  deriving DecidableEq

def MmNodes.head (mm : MmNodes) : MmRoot → Option ℕ
  | .pages => mm.fifoPgn
  | .regions i => (mm.mmap[i]?).bind VmAreaNodes.vmFreergList

def Mm.list (mm : Mm) : MmRoot → List Node
  | .pages => mm.fifoPgn.map Node.page
  | .regions i => (mm.mmap[i]?).elim [] fun v => v.vmFreergList.map Node.region

inductive PcbRoot (K : Type) where
  | frames (d : Device)
  | own (k : MmRoot)
  | other (x : K)
  deriving DecidableEq

/-- The root outside the scope of a local variable, which is none itself. -/
def PcbRoot.outer {K : Type} : PcbRoot (Option K) → Option (PcbRoot K)
  | .frames d => some (.frames d)
  | .own k => some (.own k)
  | .other none => none
  | .other (some x) => some (.other x)

def PcbRoot.inner {K : Type} : PcbRoot K → PcbRoot (Option K)
  | .frames d => .frames d
  | .own k => .own k
  | .other x => .other (some x)

theorem PcbRoot.outer_inner {K : Type} (k : PcbRoot K) : k.inner.outer = some k := by
  cases k <;> rfl

theorem PcbRoot.eq_inner {K : Type} {i : PcbRoot (Option K)} {k : PcbRoot K}
    (h : i.outer = some k) : i = k.inner := by
  cases i with
  | frames d =>
    obtain rfl := Option.some.inj h
    rfl
  | own j =>
    obtain rfl := Option.some.inj h
    rfl
  | other x =>
    cases x with
    | none => cases h
    | some x =>
      obtain rfl := Option.some.inj h
      rfl

def VmArea.plain (v : VmArea) : VmArea := { v with vmFreergList := [] }

def Mm.plain (mm : Mm) : Mm := ⟨mm.pgd, mm.mmap.map VmArea.plain, mm.symrgtbl, []⟩

def MemphyStruct.plain (mp : MemphyStruct) : MemphyStruct := { mp with freeFpList := [] }

variable {K : Type}

def pcbRoots (o : Roots Node K) (c : PcbNodes) (a : Pcb) : Roots Node (PcbRoot K) where
  head
    | .frames d => (c.dev d).freeFpList
    | .own k => c.mm.head k
    | .other x => o.head x
  list
    | .frames d => (a.dev d).freeFpList.map Node.framephy
    | .own k => a.mm.list k
    | .other x => o.list x

theorem pcbRoots_setOther [DecidableEq K] (o : Roots Node K) (c : PcbNodes) (a : Pcb)
    (x : K) (p : Option ℕ) (vs : List Node) :
    pcbRoots (o.set x p vs) c a = (pcbRoots o c a).set (.other x) p vs := by
  ext1 <;> funext k
  all_goals
    cases k with
    | frames e => simp [pcbRoots, Roots.set]
    | own k => simp [pcbRoots, Roots.set]
    | other y =>
      by_cases hy : y = x
      · subst hy
        simp [pcbRoots, Roots.set]
      · simp [pcbRoots, Roots.set, hy]

/-- The same memory: every pointer holds its list, the rest is equal. -/
structure HoldsPcb (o : Roots Node K) (c : PcbNodes) (a : Pcb) : Prop where
  mm : c.mm.plain = a.mm.plain
  dev : ∀ d, (c.dev d).plain = (a.dev d).plain
  cells : c.heap.Holds (pcbRoots o c a)

section Data
variable {o : Roots Node K} {c : PcbNodes} {a : Pcb}

theorem HoldsPcb.pgd (h : HoldsPcb o c a) : c.mm.pgd = a.mm.pgd := congrArg Mm.pgd h.mm

theorem HoldsPcb.symrgtbl (h : HoldsPcb o c a) : c.mm.symrgtbl = a.mm.symrgtbl :=
  congrArg Mm.symrgtbl h.mm

theorem HoldsPcb.mmap (h : HoldsPcb o c a) :
    c.mm.mmap.map VmAreaNodes.plain = a.mm.mmap.map VmArea.plain := congrArg Mm.mmap h.mm

/-- The areas are the same, one by one. -/
theorem HoldsPcb.area (h : HoldsPcb o c a) (i : ℕ) :
    Option.Rel (fun v w => v.plain = w.plain) (c.mm.mmap[i]?) (a.mm.mmap[i]?) := by
  have hget := congrArg (fun l => l[i]?) h.mmap
  rw [List.getElem?_map, List.getElem?_map] at hget
  cases hc : c.mm.mmap[i]? with
  | none =>
    rw [hc, Option.map_none] at hget
    rw [Option.map_eq_none_iff.mp hget.symm]
    exact .none
  | some v =>
    rw [hc, Option.map_some] at hget
    obtain ⟨w, hw, hplain⟩ := Option.map_eq_some_iff.mp hget.symm
    rw [hw]
    exact .some hplain.symm

/-- Nothing but the plain data changed. -/
theorem HoldsPcb.data {c' : PcbNodes} {a' : Pcb} (h : HoldsPcb o c a) (hheap : c'.heap = c.heap)
    (hroots : pcbRoots o c' a' = pcbRoots o c a) (hmm : c'.mm.plain = a'.mm.plain)
    (hdev : ∀ d, (c'.dev d).plain = (a'.dev d).plain) : HoldsPcb o c' a' := by
  refine ⟨hmm, hdev, ?_⟩
  rw [hheap, hroots]
  exact h.cells

/-- The frames of a device. -/
theorem HoldsPcb.setFrames (h : HoldsPcb o c a) [DecidableEq K] {d : Device} {p : Option ℕ}
    {frames : List ℕ} {heap : CellHeap Node}
    (hcells : heap.Holds ((pcbRoots o c a).set (.frames d) p (frames.map Node.framephy))) :
    HoldsPcb o ⟨c.mm, Function.update c.dev d { c.dev d with freeFpList := p }, heap⟩
      ⟨a.mm, Function.update a.dev d { a.dev d with freeFpList := frames }⟩ := by
  refine ⟨h.mm, fun e => ?_, ?_⟩
  · dsimp only
    by_cases he : e = d
    · subst he
      rw [Function.update_self, Function.update_self]
      exact h.dev e
    · rw [Function.update_of_ne he, Function.update_of_ne he]
      exact h.dev e
  · have hroots : pcbRoots o ⟨c.mm, Function.update c.dev d { c.dev d with freeFpList := p }, heap⟩
        ⟨a.mm, Function.update a.dev d { a.dev d with freeFpList := frames }⟩ =
        (pcbRoots o c a).set (.frames d) p (frames.map Node.framephy) := by
      ext1 <;> funext k
      all_goals
        cases k with
        | frames e =>
          by_cases he : e = d
          · subst he
            simp [pcbRoots, Roots.set]
          · simp [pcbRoots, Roots.set, he]
        | own k => simp [pcbRoots, Roots.set]
        | other x => simp [pcbRoots, Roots.set]
    rw [hroots]
    exact hcells

/-- The page list, and the page directory with it. -/
theorem HoldsPcb.setPages (h : HoldsPcb o c a) [DecidableEq K] {p : Option ℕ} (pages : List ℕ)
    {heap : CellHeap Node} {pgd pgd' : ℕ → BitVec 32} (hpgd : pgd = pgd')
    (hcells : heap.Holds ((pcbRoots o c a).set (.own .pages) p (pages.map Node.page))) :
    HoldsPcb o ⟨{ c.mm with pgd := pgd, fifoPgn := p }, c.dev, heap⟩
      ⟨{ a.mm with pgd := pgd', fifoPgn := pages }, a.dev⟩ := by
  subst hpgd
  refine ⟨?_, h.dev, ?_⟩
  · simp only [MmNodes.plain, Mm.plain, h.mmap, h.symrgtbl]
  · have hroots : pcbRoots o ⟨{ c.mm with pgd := pgd, fifoPgn := p }, c.dev, heap⟩
        ⟨{ a.mm with pgd := pgd, fifoPgn := pages }, a.dev⟩ =
        (pcbRoots o c a).set (.own .pages) p (pages.map Node.page) := by
      ext1 <;> funext k
      all_goals
        cases k with
        | frames e => simp [pcbRoots, Roots.set]
        | own k =>
          cases k with
          | pages => simp [pcbRoots, Roots.set, MmNodes.head, Mm.list]
          | regions i => simp [pcbRoots, Roots.set, MmNodes.head, Mm.list]
        | other x => simp [pcbRoots, Roots.set]
    rw [hroots]
    exact hcells

theorem HoldsPcb.setPgd (h : HoldsPcb o c a) (pgd : ℕ → BitVec 32) :
    HoldsPcb o { c with mm := { c.mm with pgd := pgd } }
      { a with mm := { a.mm with pgd := pgd } } := by
  refine ⟨?_, h.dev, h.cells⟩
  simp only [MmNodes.plain, Mm.plain, h.mmap, h.symrgtbl]

/-- An area with its free regions. -/
theorem HoldsPcb.setArea (h : HoldsPcb o c a) [DecidableEq K] {i : ℕ} {v : VmAreaNodes} {w : VmArea}
    (hplain : v.plain = w.plain) (hi : i < c.mm.mmap.length) {heap : CellHeap Node}
    (hcells : heap.Holds ((pcbRoots o c a).set (.own (.regions i)) v.vmFreergList
      (w.vmFreergList.map Node.region))) :
    HoldsPcb o ⟨c.mm.setVma i v, c.dev, heap⟩ ⟨a.mm.setVma i w, a.dev⟩ := by
  have hlen : c.mm.mmap.length = a.mm.mmap.length := by
    simpa using congrArg List.length h.mmap
  refine ⟨?_, h.dev, ?_⟩
  · simp only [MmNodes.plain, Mm.plain, MmNodes.setVma, Mm.setVma, List.map_set, h.mmap, h.pgd,
      h.symrgtbl, hplain]
  · have hroots : pcbRoots o ⟨c.mm.setVma i v, c.dev, heap⟩ ⟨a.mm.setVma i w, a.dev⟩ =
        (pcbRoots o c a).set (.own (.regions i)) v.vmFreergList
          (w.vmFreergList.map Node.region) := by
      ext1 <;> funext k
      all_goals
        cases k with
        | frames e => simp [pcbRoots, Roots.set]
        | own k =>
          cases k with
          | pages => simp [pcbRoots, Roots.set, MmNodes.head, Mm.list, MmNodes.setVma, Mm.setVma]
          | regions j =>
            by_cases hj : j = i
            · subst hj
              simp [pcbRoots, Roots.set, MmNodes.head, Mm.list, MmNodes.setVma, Mm.setVma, hi,
                hlen ▸ hi]
            · simp [pcbRoots, Roots.set, MmNodes.head, Mm.list, MmNodes.setVma, Mm.setVma, hj,
                Ne.symm hj]
        | other x => simp [pcbRoots, Roots.set]
    rw [hroots]
    exact hcells

/-- An area without its list. -/
theorem HoldsPcb.setData (h : HoldsPcb o c a) [DecidableEq K] {i : ℕ} {v v' : VmAreaNodes}
    {w w' : VmArea} (hv : c.mm.mmap[i]? = some v) (hw : a.mm.mmap[i]? = some w)
    (hplain : v'.plain = w'.plain) (hhead : v'.vmFreergList = v.vmFreergList)
    (hlist : w'.vmFreergList = w.vmFreergList) :
    HoldsPcb o { c with mm := c.mm.setVma i v' } { a with mm := a.mm.setVma i w' } := by
  refine h.setArea hplain (List.getElem?_eq_some_iff.mp hv).1 ?_
  rw [Roots.set_same]
  · exact h.cells
  · simp [pcbRoots, MmNodes.head, hv, hhead]
  · simp [pcbRoots, Mm.list, hw, hlist]

/-- Another pointer. -/
theorem HoldsPcb.setOther (h : HoldsPcb o c a) [DecidableEq K] {x : K} {p : Option ℕ}
    {vs : List Node} {heap : CellHeap Node}
    (hcells : heap.Holds ((pcbRoots o c a).set (.other x) p vs)) :
    HoldsPcb (o.set x p vs) { c with heap := heap } a := by
  rw [← pcbRoots_setOther] at hcells
  exact ⟨h.mm, h.dev, hcells⟩

/-- The innermost local variable. -/
theorem HoldsPcb.setLocal [DecidableEq K] {p p' : Option ℕ} {vs vs' : List Node}
    (h : HoldsPcb (o.cons p vs) c a) {heap : CellHeap Node}
    (hcells : heap.Holds ((pcbRoots (o.cons p vs) c a).set (.other none) p' vs')) :
    HoldsPcb (o.cons p' vs') { c with heap := heap } a := by
  have hset := h.setOther hcells
  rwa [Roots.cons_set_none] at hset

/-- A local variable comes into scope. -/
theorem HoldsPcb.enter (h : HoldsPcb o c a) : HoldsPcb (o.cons none []) c a := by
  refine ⟨h.mm, h.dev, h.cells.reindex PcbRoot.outer ?_ ?_ ?_⟩
  · intro i j k hi hj
    rw [PcbRoot.eq_inner hi, PcbRoot.eq_inner hj]
  · intro i k hi
    obtain rfl := PcbRoot.eq_inner hi
    cases k <;> exact ⟨rfl, rfl⟩
  · intro i hi
    cases i with
    | frames d => cases hi
    | own k => cases hi
    | other x =>
      cases x with
      | none => exact ⟨rfl, rfl⟩
      | some x => cases hi

/-- It goes out of scope, and what it points to is lost. -/
theorem HoldsPcb.leave {p : Option ℕ} {vs : List Node} (h : HoldsPcb (o.cons p vs) c a) :
    HoldsPcb o c a := by
  refine ⟨h.mm, h.dev, h.cells.reindex (fun k => some k.inner) ?_ ?_ ?_⟩
  · intro i j k hi hj
    have hij : i.inner = j.inner := Option.some.inj (hi.trans hj.symm)
    exact Option.some.inj (by rw [← PcbRoot.outer_inner, ← PcbRoot.outer_inner, hij])
  · intro k i hi
    obtain rfl := Option.some.inj hi
    cases k <;> exact ⟨rfl, rfl⟩
  · intro i hi
    cases hi

end Data

end OsSim.Mem
