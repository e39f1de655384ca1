import OsSim.Mem.NodeCalls

/-!
# Runs on pointers

Any number of processes, loaded one after the other, call the library on one heap.
-/

namespace OsSim.Mem
open OsSim.Base

/-! ### The free lists that `init_memphy` builds -/

section Devices
variable {calls : Malloc} {nodes nodes' : FpHeap} {heap : CellHeap Node}

theorem HasNodes.of_kept (h : HasNodes heap nodes')
    (hkeep : ∀ a, nodes a ≠ none → nodes' a = nodes a) : HasNodes heap nodes := by
  intro a node ha
  have hlive : nodes a ≠ none := by simp [ha]
  exact h a node ((hkeep a hlive).trans ha)

/-- With more than one node the list ends at `NULL`. The induction is on the nodes from
number `i` on. -/
theorem Built.listAt {k : ℕ} (h : Built calls nodes k nodes') (hk : k ≠ 0)
    (hheap : HasNodes heap nodes') (n : ℕ) {i : ℕ} (hi : i + n = k) :
    ListAt heap (some (calls.addr i)) ((List.range' i (n + 1)).map calls.addr)
      ((List.range' i (n + 1)).map Node.framephy) := by
  induction n generalizing i with
  | zero =>
    obtain rfl : i = k := hi
    have hlast := hheap _ _ h.last
    rw [if_neg hk] at hlast
    exact .cons hlast .nil
  | succ n ih =>
    rw [List.range'_succ, List.map_cons, List.map_cons]
    exact .cons (hheap _ _ (h.link i (by omega))) (ih (by omega))

/-- What `init_memphy` makes of a device with at least two frames. -/
theorem initMemphyNodes_two (hm : calls.Fresh nodes) {old mp : MemphyNodes} {maxSize : ℕ}
    (hframes : 2 ≤ maxSize / pagingPagesz) (hcursor : old.cursor = 0)
    (hinit : initMemphyNodes calls old nodes maxSize 1 = some (mp, nodes')) :
    mp.plain = (ramDevice maxSize).plain ∧ mp.freeFpList = some (calls.addr 0) ∧
      ∃ k, maxSize / pagingPagesz = k + 1 ∧ k ≠ 0 ∧ Built calls nodes k nodes' := by
  obtain ⟨mp', nodes'', hinit', hfields, hcases⟩ := initMemphyNodes_cases hm old maxSize 1
  rw [hinit] at hinit'
  obtain ⟨rfl, rfl⟩ := Prod.mk.inj (Option.some.inj hinit')
  obtain ⟨hstorage, hmaxsz, hrdmflg, hcur⟩ := hfields
  have hplain : mp.plain = (ramDevice maxSize).plain := by
    rw [hcursor] at hcur
    simp [MemphyNodes.plain, MemphyStruct.plain, ramDevice, hstorage, hmaxsz, hrdmflg, hcur]
  rcases hcases with ⟨hzero, -⟩ | ⟨k, hk, hlist, hbuilt⟩
  · rw [pagingPagesz] at hframes
    omega
  · refine ⟨hplain, hlist, k, hk, ?_, hbuilt⟩
    rw [pagingPagesz] at hframes
    omega

/-- The calls of `malloc` that follow return other addresses. -/
theorem Malloc.Fresh.after (hm : calls.Fresh nodes) {old mp : MemphyNodes} {maxSize : ℕ}
    (hinit : initMemphyNodes calls old nodes maxSize 1 = some (mp, nodes')) :
    (calls.after (maxSize / pagingPagesz)).Fresh nodes' := by
  obtain ⟨mp', nodes'', hinit', -, hcases⟩ := initMemphyNodes_cases hm old maxSize 1
  rw [hinit] at hinit'
  obtain ⟨rfl, rfl⟩ := Prod.mk.inj (Option.some.inj hinit')
  refine ⟨fun i j hij => ?_, fun i => ?_⟩
  · have hsum := hm.injective hij
    omega
  · rcases hcases with ⟨-, -, rfl⟩ | ⟨k, hk, -, hbuilt⟩
    · exact hm.unused _
    · have hframe : nodes' ((calls.after (maxSize / pagingPagesz)).addr i) =
          nodes ((calls.after (maxSize / pagingPagesz)).addr i) := by
        refine hbuilt.frame _ fun j hj heq => ?_
        have hsame : maxSize / 256 + i = j := hm.injective heq
        omega
      exact hframe.trans (hm.unused _)

/-- Above some address there is still nothing. -/
theorem initMemphyNodes_bounded (hm : calls.Fresh nodes) {old mp : MemphyNodes} {maxSize : ℕ}
    (hinit : initMemphyNodes calls old nodes maxSize 1 = some (mp, nodes')) {b : ℕ}
    (hb : ∀ a, b ≤ a → nodes a = none) : ∃ b', ∀ a, b' ≤ a → nodes' a = none := by
  obtain ⟨mp', nodes'', hinit', -, hcases⟩ := initMemphyNodes_cases hm old maxSize 1
  rw [hinit] at hinit'
  obtain ⟨rfl, rfl⟩ := Prod.mk.inj (Option.some.inj hinit')
  rcases hcases with ⟨-, -, rfl⟩ | ⟨k, -, -, hbuilt⟩
  · exact ⟨b, hb⟩
  · refine ⟨max b ((Finset.range (k + 1)).sup calls.addr + 1), fun a ha => ?_⟩
    have hframe : nodes' a = nodes a := by
      refine hbuilt.frame a fun i hi heq => ?_
      have hle : calls.addr i ≤ (Finset.range (k + 1)).sup calls.addr :=
        Finset.le_sup (Finset.mem_range.mpr (by omega))
      omega
    exact hframe.trans (hb a (by omega))

end Devices

/-! ### The roots of all processes -/

inductive SysRoot (ι : Type) where
  | frames (d : Device)
  | own (p : ι) (k : MmRoot)
  deriving DecidableEq

section Roots
variable {ι : Type}

/-- A process that is not loaded has no pointers yet. -/
def sysRoots (s : SysNodes ι) (t : MemSys ι) : Roots Node (SysRoot ι) where
  head
    | .frames d => (s.dev d).freeFpList
    | .own p k => (s.mm p).bind fun mm => mm.head k
  list
    | .frames d => (t.dev d).freeFpList.map Node.framephy
    | .own p k => (s.mm p).elim [] fun _ => (t.mm p).list k

/-- The same memory. A process that is not loaded is as `init_mm` will leave it. -/
structure HoldsSys (s : SysNodes ι) (t : MemSys ι) : Prop where
  mm : ∀ p mm, s.mm p = some mm → mm.plain = (t.mm p).plain
  fresh : ∀ p, s.mm p = none → t.mm p = .fresh
  dev : ∀ d, (s.dev d).plain = (t.dev d).plain
  cells : s.heap.Holds (sysRoots s t)

variable [DecidableEq ι]

/-- The pointers of the processes other than `p`. -/
def otherRoots (s : SysNodes ι) (t : MemSys ι) (p : ι) : Roots Node (ι × MmRoot) where
  head x := if x.1 = p then none else (sysRoots s t).head (.own x.1 x.2)
  list x := if x.1 = p then [] else (sysRoots s t).list (.own x.1 x.2)

/-- The root that process `p` finds there. -/
def viewRoot (p : ι) : PcbRoot (ι × MmRoot) → Option (SysRoot ι)
  | .frames d => some (.frames d)
  | .own k => some (.own p k)
  | .other x => if x.1 = p then none else some (.own x.1 x.2)

def putRoot (p : ι) : SysRoot ι → PcbRoot (ι × MmRoot)
  | .frames d => .frames d
  | .own q k => if q = p then .own k else .other (q, k)

theorem eq_putRoot {p : ι} {i : PcbRoot (ι × MmRoot)} {k : SysRoot ι} (h : viewRoot p i = some k) :
    i = putRoot p k := by
  cases i with
  | frames d =>
    obtain rfl := Option.some.inj h
    rfl
  | own j =>
    obtain rfl := Option.some.inj h
    exact (if_pos rfl).symm
  | other x =>
    by_cases hx : x.1 = p
    · rw [viewRoot, if_pos hx] at h
      cases h
    · rw [viewRoot, if_neg hx] at h
      obtain rfl := Option.some.inj h
      exact (if_neg hx).symm

theorem viewRoot_putRoot (p : ι) (k : SysRoot ι) : viewRoot p (putRoot p k) = some k := by
  cases k with
  | frames d => rfl
  | own q k =>
    by_cases hq : q = p
    · subst hq
      rw [putRoot, if_pos rfl, viewRoot]
    · rw [putRoot, if_neg hq, viewRoot, if_neg hq]

variable {s : SysNodes ι} {t : MemSys ι} {p : ι}

theorem SysNodes.put_mm_self (s : SysNodes ι) (p : ι) (proc : PcbNodes) :
    (s.put p proc).mm p = some proc.mm := Function.update_self ..

theorem SysNodes.put_mm_other (s : SysNodes ι) {p q : ι} (proc : PcbNodes) (h : q ≠ p) :
    (s.put p proc).mm q = s.mm q := Function.update_of_ne h _ _

/-- The memory as process `p` sees it, where `mm` has the pointers of the process. -/
theorem HoldsSys.view (h : HoldsSys s t) {mm : MmNodes} {a : Mm} (hmm : mm.plain = a.plain)
    (hroots : ∀ k, mm.head k = (sysRoots s t).head (.own p k) ∧
      a.list k = (sysRoots s t).list (.own p k)) :
    HoldsPcb (otherRoots s t p) ⟨mm, s.dev, s.heap⟩ ⟨a, t.dev⟩ := by
  refine ⟨hmm, h.dev, h.cells.reindex (viewRoot p) ?_ ?_ ?_⟩
  · intro i j k hi hj
    rw [eq_putRoot hi, eq_putRoot hj]
  · intro i k hi
    obtain rfl := eq_putRoot hi
    cases k with
    | frames d => exact ⟨rfl, rfl⟩
    | own q k =>
      by_cases hq : q = p
      · subst hq
        rw [putRoot, if_pos rfl]
        exact hroots k
      · rw [putRoot, if_neg hq]
        exact ⟨if_neg hq, if_neg hq⟩
  · intro i hi
    cases i with
    | frames d => cases hi
    | own k => cases hi
    | other x =>
      by_cases hx : x.1 = p
      · exact ⟨if_pos hx, if_pos hx⟩
      · rw [viewRoot, if_neg hx] at hi
        cases hi

theorem HoldsSys.pcb (h : HoldsSys s t) {mm : MmNodes} (hp : s.mm p = some mm) :
    HoldsPcb (otherRoots s t p) ⟨mm, s.dev, s.heap⟩ (t.pcb p) := by
  refine h.view (h.mm p mm hp) fun k => ?_
  simp only [sysRoots, hp, Option.bind_some, Option.elim_some, and_self]

/-- What process `p` did to it. -/
theorem HoldsSys.put (h : HoldsSys s t) {c : PcbNodes} {a : Pcb}
    (hpcb : HoldsPcb (otherRoots s t p) c a) : HoldsSys (s.put p c) (t.put p a) := by
  refine ⟨fun q mm hq => ?_, fun q hq => ?_, hpcb.dev, ?_⟩
  · by_cases hqp : q = p
    · subst hqp
      rw [SysNodes.put_mm_self] at hq
      obtain rfl := Option.some.inj hq
      rw [MemSys.put_mm_self]
      exact hpcb.mm
    · rw [SysNodes.put_mm_other s c hqp] at hq
      rw [MemSys.put_mm_other t a hqp]
      exact h.mm q mm hq
  · by_cases hqp : q = p
    · subst hqp
      rw [SysNodes.put_mm_self] at hq
      cases hq
    · rw [SysNodes.put_mm_other s c hqp] at hq
      rw [MemSys.put_mm_other t a hqp]
      exact h.fresh q hq
  · refine hpcb.cells.reindex (fun k => some (putRoot p k)) ?_ ?_ ?_
    · intro i j k hi hj
      have hij : putRoot p i = putRoot p j := Option.some.inj (hi.trans hj.symm)
      exact Option.some.inj (by rw [← viewRoot_putRoot p i, ← viewRoot_putRoot p j, hij])
    · intro i k hi
      obtain rfl := Option.some.inj hi
      cases i with
      | frames d => exact ⟨rfl, rfl⟩
      | own q k =>
        by_cases hq : q = p
        · subst hq
          simp [putRoot, sysRoots, pcbRoots, SysNodes.put, MemSys.put]
        · simp [putRoot, sysRoots, pcbRoots, otherRoots, SysNodes.put, MemSys.put, hq]
    · intro i hi
      cases hi

end Roots

/-! ### Loading, booting and calling -/

section Steps
variable {ι : Type} [DecidableEq ι] {s : SysNodes ι} {t : MemSys ι} {p : ι}

/-- `init_mm` before its only region is linked. -/
def MmNodes.bare : MmNodes := ⟨fun _ => 0, [⟨0, 0, 0, 0, none⟩], fun _ => ⟨0, 0⟩, none⟩

def Mm.bare : Mm := ⟨fun _ => 0, [⟨0, 0, 0, 0, []⟩], fun _ => ⟨0, 0⟩, []⟩

/-- A process that is loaded starts with what the lists' model gave it at once. -/
theorem HoldsSys.load (h : HoldsSys s t) (m : Allocator Node) (hp : s.mm p = none) :
    ∃ mm heap, Nodes.initMm m s.heap = some (mm, heap) ∧
      HoldsSys (s.put p ⟨mm, s.dev, heap⟩) t := by
  have hview : HoldsPcb (otherRoots s t p) ⟨.bare, s.dev, s.heap⟩ ⟨.bare, t.dev⟩ := by
    refine h.view rfl fun k => ?_
    simp only [sysRoots, hp, Option.bind_none, Option.elim_none]
    cases k with
    | pages => exact ⟨rfl, rfl⟩
    | regions i =>
      cases i with
      | zero => exact ⟨rfl, rfl⟩
      | succ i => exact ⟨rfl, rfl⟩
  obtain ⟨hcell, hlink⟩ := (hview.malloc m (.region (initVmRg 0 0))).linkRegion (i := 0) rfl rfl
  have hput := h.put hlink
  have hrg : initVmRg 0 0 = ⟨0, 0⟩ := by simp [initVmRg, toInt, toULong]
  have hfresh : Mm.bare.setVma 0 ⟨0, 0, 0, 0, [initVmRg 0 0]⟩ = t.mm p := by
    rw [hrg, h.fresh p hp]
    rfl
  rw [hfresh, MemSys.put, Function.update_eq_self] at hput
  refine ⟨_, _, ?_, hput⟩
  dsimp only at hcell
  simp only [Nodes.initMm, Nodes.initVmRg, Nodes.enlistVmRgNode, CellHeap.store, hcell,
    Option.bind_eq_bind, Option.bind_some, Option.map_some]
  rfl

/-- The nodes of the two free lists. -/
def frameCells (calls : Malloc) (n n' : ℕ) : SysRoot ι → List ℕ
  | .frames .mram => (List.range n).map calls.addr
  | .frames .activeMswp => (List.range n').map (calls.after n).addr
  | .own _ _ => []

omit [DecidableEq ι] in
theorem frameCells_disjoint {calls : Malloc} (hnew : Function.Injective calls.addr) (n n' : ℕ)
    (j k : SysRoot ι) (hjk : j ≠ k) :
    (frameCells calls n n' j).Disjoint (frameCells calls n n' k) := by
  have hapart : ∀ a, a ∈ (List.range n).map calls.addr →
      a ∉ (List.range n').map (calls.after n).addr := by
    intro a hram hswap
    obtain ⟨i, hi, rfl⟩ := List.mem_map.mp hram
    obtain ⟨i', -, heq⟩ := List.mem_map.mp hswap
    have hsame : n + i' = i := hnew heq
    have hlt := List.mem_range.mp hi
    omega
  intro a hj hk
  cases j with
  | own p k => cases hj
  | frames d =>
    cases k with
    | own p k => cases hk
    | frames e =>
      cases d <;> cases e
      · exact hjk rfl
      · exact hapart a hj hk
      · exact hapart a hk hj
      · exact hjk rfl

omit [DecidableEq ι] in
/-- What `main` leaves: the frames of the two devices, if each has two or more. -/
theorem boots_holds {calls : Malloc} {oldRam oldSwap : MemphyNodes} {ramSize swapSize : ℕ}
    (hram : 2 ≤ ramSize / pagingPagesz) (hswap : 2 ≤ swapSize / pagingPagesz)
    (h : Boots calls oldRam oldSwap ramSize swapSize s) :
    HoldsSys s (.start ramSize swapSize) := by
  obtain ⟨nodes, hinit, hheap⟩ := h.devices
  obtain ⟨⟨mram, nodes1⟩, hinit1, hinit⟩ := Option.bind_eq_some_iff.mp hinit
  obtain ⟨⟨mswp, nodes2⟩, hinit2, hinit⟩ := Option.bind_eq_some_iff.mp hinit
  simp only [Option.some.injEq, Prod.mk.injEq] at hinit
  obtain ⟨rfl, rfl, rfl⟩ := hinit
  have hfresh : calls.Fresh fun _ => none := ⟨h.new, fun _ => rfl⟩
  obtain ⟨hplain, hlist, k, hk, hk0, hbuilt⟩ :=
    initMemphyNodes_two hfresh hram h.cursor.1 hinit1
  have hfresh' := hfresh.after hinit1
  obtain ⟨hplain', hlist', k', hk', hk0', hbuilt'⟩ :=
    initMemphyNodes_two hfresh' hswap h.cursor.2 hinit2
  have hheap1 := hheap.of_kept (hbuilt'.keeps hfresh')
  constructor
  case mm =>
    intro p mm hp
    rw [h.unloaded p] at hp
    cases hp
  case fresh =>
    intro p _
    rfl
  case dev =>
    intro d
    cases d with
    | mram => exact hplain
    | activeMswp => exact hplain'
  case cells =>
    refine ⟨frameCells calls (ramSize / pagingPagesz) (swapSize / pagingPagesz), fun j => ?_,
      frameCells_disjoint h.new _ _⟩
    cases j with
    | own p k =>
      simp only [sysRoots, h.unloaded p, Option.bind_none, Option.elim_none]
      exact .nil
    | frames d =>
      cases d with
      | mram =>
        have hram := hbuilt.listAt hk0 hheap1 k (Nat.zero_add k)
        rw [← List.range_eq_range', ← hk, ← hlist] at hram
        exact hram
      | activeMswp =>
        have hswap := hbuilt'.listAt hk0' hheap k' (Nat.zero_add k')
        rw [← List.range_eq_range', ← hk', ← hlist'] at hswap
        exact hswap

omit [DecidableEq ι] in
/-- Whatever `malloc` returns, `main` gets there. -/
theorem exists_boots {calls : Malloc} (hnew : Function.Injective calls.addr)
    {oldRam oldSwap : MemphyNodes} (hcursor : oldRam.cursor = 0 ∧ oldSwap.cursor = 0)
    (ramSize swapSize : ℕ) : ∃ s : SysNodes ι, Boots calls oldRam oldSwap ramSize swapSize s := by
  have hfresh : calls.Fresh fun _ => none := ⟨hnew, fun _ => rfl⟩
  obtain ⟨mram, nodes1, hram, -⟩ := initMemphyNodes_cases hfresh oldRam ramSize 1
  have hfresh' := hfresh.after hram
  obtain ⟨mswp, nodes2, hswap, -⟩ := initMemphyNodes_cases hfresh' oldSwap swapSize 1
  obtain ⟨b, hb⟩ := initMemphyNodes_bounded hfresh hram fun a (_ : 0 ≤ a) => rfl
  obtain ⟨b', hb'⟩ := initMemphyNodes_bounded hfresh' hswap hb
  let heap : CellHeap Node :=
    ⟨fun a => (nodes2 a).map fun node => ⟨.framephy node.fpn.toNat, node.fpNext⟩, b',
      fun a ha => by rw [hb' a ha, Option.map_none]⟩
  refine ⟨⟨fun _ => none, fun d => if d = .mram then mram else mswp, heap⟩, hnew, hcursor,
    fun _ => rfl, nodes2, ?_, fun a node ha => ?_⟩
  · simp only [initDevices, hram, hswap, Option.bind_eq_bind, Option.bind_some, if_true,
      reduceCtorEq, if_false]
  · simp only [heap, ha, Option.map_some]

/-- A call on pointers keeps the two memories the same. -/
theorem HoldsSys.call (h : HoldsSys s t) (m : Allocator Node) {mm : MmNodes} (hp : s.mm p = some mm)
    (op : MemOp) : Option.Rel (fun r r' => r.1 = r'.1 ∧ HoldsSys (s.put p r.2) (t.put p r'.2))
      (Nodes.memCall m ⟨mm, s.dev, s.heap⟩ op) (memCall (t.pcb p) op) :=
  rel_mono ((h.pcb hp).memCall m op) fun _ _ hr => ⟨hr.1, h.put hr.2⟩

/-! ### Whole runs -/

/-- Every run on pointers is a run on lists. -/
theorem nodesReachable_holds {m : Allocator Node} {ramSize swapSize : ℕ}
    (hram : 2 ≤ ramSize / pagingPagesz) (hswap : 2 ≤ swapSize / pagingPagesz)
    (h : Reachable (nodesSystem m ramSize swapSize) (fun _ _ => True) s) :
    ∃ t : MemSys ι, MemReachable ramSize swapSize (fun _ _ => True) t ∧ HoldsSys s t := by
  refine h.invariant (fun s => ∃ t : MemSys ι, MemReachable ramSize swapSize (fun _ _ => True) t ∧
    HoldsSys s t) ?_ ?_
  · intro s hs
    obtain ⟨calls, oldRam, oldSwap, hboots⟩ := hs
    exact ⟨_, .init rfl, boots_holds hram hswap hboots⟩
  · intro s label s' hI _ hstep
    obtain ⟨t, ht, hholds⟩ := hI
    cases label with
    | load p =>
      cases hp : s.mm p with
      | some mm =>
        simp only [nodesSystem, nodesStep, hp] at hstep
        cases hstep
      | none =>
        obtain ⟨mm, heap, hinit, hload⟩ := hholds.load m hp
        simp only [nodesSystem, nodesStep, hp, hinit, Option.map_some] at hstep
        obtain rfl := Option.some.inj hstep
        exact ⟨t, ht, hload⟩
    | call p op =>
      cases hp : s.mm p with
      | none =>
        simp only [nodesSystem, nodesStep, hp, Option.bind_eq_bind, Option.bind_none] at hstep
        cases hstep
      | some mm =>
        simp only [nodesSystem, nodesStep, hp, Option.bind_eq_bind, Option.bind_some] at hstep
        rcases rel_cases (hholds.call m hp op) with ⟨hnone, -⟩ | ⟨r, r', hcall, hcall', -, hput⟩
        · rw [hnone] at hstep
          cases hstep
        · rw [hcall] at hstep
          obtain rfl := Option.some.inj hstep
          refine ⟨_, .step (a := (p, op)) ht trivial ?_, hput⟩
          simp only [System.ofStep, memStep, hcall', Option.map_some]

/-- However `malloc` places the nodes: on devices of two or more frames, in every state of
every run there is a state of a run on lists with the same memory, a process that is not
loaded can be, and each call of a loaded one answers what it answers on lists and leaves
the same memory, or neither is defined. So a call that is defined on lists follows no
dangling pointer, frees no node twice and reaches no node of another list. -/
theorem nodes_refine_lists {m : Allocator Node} {ramSize swapSize : ℕ}
    (hram : 2 ≤ ramSize / pagingPagesz) (hswap : 2 ≤ swapSize / pagingPagesz)
    (h : Reachable (nodesSystem m ramSize swapSize) (fun _ _ => True) s) :
    ∃ t : MemSys ι, MemReachable ramSize swapSize (fun _ _ => True) t ∧ HoldsSys s t ∧
      (∀ p, s.mm p = none → ∃ s', nodesStep m s (.load p) = some s' ∧ HoldsSys s' t) ∧
      ∀ p mm op, s.mm p = some mm →
        Option.Rel (fun r r' => r.1 = r'.1 ∧ HoldsSys (s.put p r.2) (t.put p r'.2))
          (Nodes.memCall m ⟨mm, s.dev, s.heap⟩ op) (memCall (t.pcb p) op) := by
  obtain ⟨t, ht, hholds⟩ := nodesReachable_holds hram hswap h
  refine ⟨t, ht, hholds, fun p hp => ?_, fun p mm op hp => hholds.call m hp op⟩
  obtain ⟨mm, heap, hinit, hload⟩ := hholds.load m hp
  refine ⟨_, ?_, hload⟩
  simp only [nodesStep, hp, hinit, Option.map_some]

/-- Both devices of four frames, on nodes that held a pointer before. -/
theorem nodes_refine_lists_loaded : ∃ s : SysNodes Bool,
    Reachable (nodesSystem .lowest 1024 1024) (fun _ _ => True) s ∧ s.mm false = none ∧
      ∃ mm t, s.mm true = some mm ∧ HoldsSys s t ∧
        (∃ s', nodesStep .lowest s (.load false) = some s') ∧
        Option.Rel (fun r r' => r.1 = r'.1 ∧ HoldsSys (s.put true r.2) (t.put true r'.2))
          (Nodes.memCall .lowest ⟨mm, s.dev, s.heap⟩ (.alloc 300 0))
          (memCall (t.pcb true) (.alloc 300 0)) := by
  have hold : (⟨fun _ => 0, 0, false, 0, some 7⟩ : MemphyNodes).cursor = 0 := rfl
  obtain ⟨s0, hboots⟩ :=
    exists_boots (ι := Bool) countingMalloc_fresh.injective ⟨hold, hold⟩ 1024 1024
  have hholds := boots_holds (by decide) (by decide) hboots
  obtain ⟨mm, heap, hinit, -⟩ := hholds.load .lowest (hboots.unloaded true)
  have hstep : nodesStep .lowest s0 (.load true) = some (s0.put true ⟨mm, s0.dev, heap⟩) := by
    simp only [nodesStep, hboots.unloaded true, hinit, Option.map_some]
  have hreach : Reachable (nodesSystem .lowest 1024 1024) (fun _ _ => True)
      (s0.put true ⟨mm, s0.dev, heap⟩) := .step (.init ⟨_, _, _, hboots⟩) trivial hstep
  have hloaded := SysNodes.put_mm_self s0 true ⟨mm, s0.dev, heap⟩
  have hother : (s0.put true ⟨mm, s0.dev, heap⟩).mm false = none :=
    (SysNodes.put_mm_other s0 _ Bool.false_ne_true).trans (hboots.unloaded false)
  obtain ⟨t, -, hsame, hload, hcall⟩ := nodes_refine_lists (by decide) (by decide) hreach
  obtain ⟨s', hs', -⟩ := hload false hother
  exact ⟨_, hreach, hother, mm, t, hloaded, hsame, ⟨s', hs'⟩, hcall true mm _ hloaded⟩

end Steps

end OsSim.Mem
