import OsSim.Mem.Life
import OsSim.Os.Killall

/-!
# What system call 101 counts and releases (sys_killall.c:137-263)

`running_list` and the ready queues are searched one after the other, and every entry
with the name is handled for itself: it is counted, and the region ids its `regs` hold
are freed. After `add_proc` a process has an entry in both, and `__free` releases the
bytes of an id as often as it is called.
-/

namespace OsSim.Os
open OsSim.Base OsSim.Sched OsSim.Mem

variable {P : Type}

/-- The free regions of a process. -/
def freeRegions (mm : Mm) : List VmRg := mm.mmap.flatMap VmArea.vmFreergList

/-- The live regions of a process. -/
def liveRegions (s : RegionSys P) (proc : P) : List VmRg :=
  (List.range 30).flatMap (liveRgs (fun i => (s.live proc i).isSome) (s.mem.mm proc).symrgtbl)

/-- What is released for a register: nothing for 0, for an id outside the table and for
an entry without bytes. -/
def namedRg (symrgtbl : ℕ → VmRg) (reg : BitVec 32) : List VmRg :=
  let rg := initVmRg (symrgtbl reg.toNat).rgStart (symrgtbl reg.toNat).rgEnd
  if reg ≠ 0 ∧ reg.toNat < 30 ∧ rg.rgStart < rg.rgEnd then [rg] else []

def namedRegions (prog : Program) (symrgtbl : ℕ → VmRg) : List VmRg :=
  (List.finRange 10).flatMap fun j => namedRg symrgtbl (prog.regs j)

/-- Every removed process is counted once and its live regions are released, each once;
no other region is. -/
def KillsOnce (prog : P → Program) (name : List Byte) (s : RegionSys P)
    (sched sched' : SchedState P) (mem' : MemSys P) (rc : ℤ) : Prop :=
  ∃ removed : Finset P,
    (∀ proc, proc ∈ removed ↔
      (prog proc).storedPath = name ∧ Queued sched proc ∧ ¬Queued sched' proc) ∧
    rc = removed.card ∧
    ∀ proc, ∃ released,
      freeRegions (mem'.mm proc) = released ++ freeRegions (s.mem.mm proc) ∧
      (proc ∈ removed → released.Perm (liveRegions s proc)) ∧ (proc ∉ removed → released = [])

/-- A process with the name has one entry in all queues together, and its registers name
its live regions. -/
def EnteredOnce [DecidableEq P] (prog : P → Program) (name : List Byte) (s : RegionSys P)
    (sched : SchedState P) : Prop :=
  ∀ proc, Queued sched proc → (prog proc).storedPath = name →
    sched.runningList.toList.count proc + waiting sched proc = 1 ∧
    (namedRegions (prog proc) (s.mem.mm proc).symrgtbl).Perm (liveRegions s proc)

/-! ### The free lists -/

/-- The memory after regions were put in front of the free lists. -/
structure Enlisted (mem mem' : MemSys P) (rgs : P → List VmRg) : Prop where
  area : OneArea mem'
  symrgtbl : ∀ q, (mem'.mm q).symrgtbl = (mem.mm q).symrgtbl
  free : ∀ q, freeRegions (mem'.mm q) = rgs q ++ freeRegions (mem.mm q)

theorem Enlisted.refl {mem : MemSys P} (h : OneArea mem) : Enlisted mem mem fun _ => [] :=
  ⟨h, fun _ => rfl, fun _ => rfl⟩

theorem Enlisted.trans {mem mid mem' : MemSys P} {rgs rgs' : P → List VmRg}
    (h : Enlisted mem mid rgs) (h' : Enlisted mid mem' rgs') :
    Enlisted mem mem' fun q => rgs' q ++ rgs q where
  area := h'.area
  symrgtbl q := (h'.symrgtbl q).trans (h.symrgtbl q)
  free q := by rw [h'.free, h.free, List.append_assoc]

theorem freeRegions_heap {mm : Mm} {brk : ℕ} {fr : List VmRg} (h : HeapIs mm brk fr) :
    freeRegions mm = fr := by
  have hmmap : mm.mmap = [⟨0, 0, brk, brk, fr⟩] := h
  rw [freeRegions, hmmap, List.flatMap_singleton]

theorem accessStep_mmap {proc proc' : Pcb} {rgid offset : ℤ}
    (h : AccessStep proc rgid offset proc') : proc'.mm.mmap = proc.mm.mmap := by
  cases h with
  | refused heq => rw [heq]
  | page _ _ hpage =>
    cases hpage with
    | hit _ hmm => rw [hmm]
    | fault vic swpfpn older frames _ _ _ hmm =>
      rw [hmm]
      rfl

section Frees
variable [DecidableEq P] {mem mem' : MemSys P}

theorem enlisted_put {proc : P} {pcb : Pcb} (hmem : OneArea mem) {brk : ℕ} {fr rgs : List VmRg}
    (hheap : HeapIs (mem.mm proc) brk fr) (hheap' : HeapIs pcb.mm brk (rgs ++ fr))
    (hsym : pcb.mm.symrgtbl = (mem.mm proc).symrgtbl) :
    Enlisted mem (mem.put proc pcb) fun q => if q = proc then rgs else [] where
  area := heap_put hmem ⟨brk, _, hheap'⟩
  symrgtbl q := by
    by_cases hq : q = proc
    · rw [hq, mem.put_mm_self, hsym]
    · rw [mem.put_mm_other _ hq]
  free q := by
    by_cases hq : q = proc
    · rw [if_pos hq, hq, mem.put_mm_self, freeRegions_heap hheap, freeRegions_heap hheap']
    · rw [if_neg hq, mem.put_mm_other _ hq, List.nil_append]

/-- Decoding the name changes no free list. -/
theorem procName_enlisted (h : OneArea mem) {caller : P} {memrg : BitVec 32}
    {name : Option (List Byte)} (hname : procName mem caller memrg = some (name, mem')) :
    Enlisted mem mem' fun _ => [] := by
  refine procName_keeps (I := fun m => Enlisted mem m fun _ => []) ?_ (.refl h) hname
  intro m source offset m' hm hnext
  obtain ⟨⟨ret, proc⟩, hcall, rfl⟩ := Option.map_eq_some_iff.mp hnext
  obtain ⟨brk, fr, hheap⟩ : ∃ brk fr, HeapIs (m.pcb caller).mm brk fr := hm.area caller
  have hsym : proc.mm.symrgtbl = (m.mm caller).symrgtbl := by
    funext i
    exact memCall_symrgtbl hheap hcall fun _ _ hop => by cases hop
  cases memCall_step hcall with
  | read hstep =>
    have hheap' : HeapIs proc.mm brk ([] ++ fr) := (accessStep_mmap hstep).trans hheap
    have hput := enlisted_put hm.area hheap hheap' hsym
    simp only [ite_self] at hput
    exact hm.trans hput

theorem enlisted_free (h : OneArea mem) {prog : P → Program} {proc : P} {j : Fin 10}
    (hfree : (if (prog proc).regs j ≠ 0 then memStep mem (proc, .free ((prog proc).regs j))
      else some mem) = some mem') :
    Enlisted mem mem' fun q => if q = proc then
      namedRg (mem.mm proc).symrgtbl ((prog proc).regs j) else [] := by
  generalize (prog proc).regs j = reg at hfree
  obtain ⟨brk, fr, hheap⟩ := h proc
  have hpcb : HeapIs (mem.pcb proc).mm brk fr := hheap
  by_cases hzero : reg = 0
  · rw [if_neg (not_not.mpr hzero)] at hfree
    obtain rfl := Option.some.inj hfree
    have hnone : namedRg (mem.mm proc).symrgtbl reg = [] := if_neg fun hreg => hreg.1 hzero
    simp only [hnone, ite_self]
    exact .refl h
  · rw [if_pos hzero] at hfree
    obtain ⟨⟨ret, pcb⟩, hcall, rfl⟩ := Option.map_eq_some_iff.mp hfree
    have hlib := libfree_of_memCall hcall
    by_cases hbytes : reg.toNat < 30 ∧
        ((mem.pcb proc).freedRg reg.toNat).rgStart < ((mem.pcb proc).freedRg reg.toNat).rgEnd
    · obtain ⟨-, rfl⟩ := Prod.mk.inj (Option.some.inj
        (hlib.symm.trans (free_again hpcb hbytes.1 hbytes.2)))
      rw [namedRg, if_pos ⟨hzero, hbytes.1, hbytes.2⟩]
      exact enlisted_put h hheap rfl rfl
    · have hsame : pcb = mem.pcb proc := by
        by_contra hne
        obtain heq' | heq' := free_cases hpcb reg.toInt
        · exact hne (Prod.mk.inj (Option.some.inj (hlib.symm.trans heq'))).2
        · obtain ⟨hrc, -⟩ := Prod.mk.inj (Option.some.inj (hlib.symm.trans heq'))
          rw [hrc] at hlib
          obtain ⟨hid, hlt, -⟩ := free_zero hpcb hlib
          exact hbytes ⟨hid, hlt⟩
      rw [hsame, namedRg, if_neg fun hreg => hbytes hreg.2]
      exact enlisted_put h hheap hheap rfl

theorem namedRg_reverse (symrgtbl : ℕ → VmRg) (reg : BitVec 32) :
    (namedRg symrgtbl reg).reverse = namedRg symrgtbl reg := by
  rw [namedRg]
  split_ifs <;> rfl

theorem enlisted_frees (prog : P → Program) (proc : P) (js : List (Fin 10)) (h : OneArea mem)
    (hfree : js.foldlM (fun mem j => if (prog proc).regs j ≠ 0 then
      memStep mem (proc, .free ((prog proc).regs j)) else some mem) mem = some mem') :
    Enlisted mem mem' fun q => if q = proc then
      (js.flatMap fun j => namedRg (mem.mm proc).symrgtbl ((prog proc).regs j)).reverse else [] := by
  induction js generalizing mem with
  | nil =>
    obtain rfl := Option.some.inj hfree
    simp only [List.flatMap_nil, List.reverse_nil, ite_self]
    exact .refl h
  | cons j rest ih =>
    rw [List.foldlM_cons] at hfree
    obtain ⟨mid, hfirst, hrest⟩ := Option.bind_eq_some_iff.mp hfree
    have hmid := enlisted_free h hfirst
    have hlast := hmid.trans (ih hmid.area hrest)
    have hrgs : ∀ q, ((if q = proc then (rest.flatMap fun j =>
          namedRg (mid.mm proc).symrgtbl ((prog proc).regs j)).reverse else []) ++
          if q = proc then namedRg (mem.mm proc).symrgtbl ((prog proc).regs j) else []) =
        if q = proc then ((j :: rest).flatMap fun j =>
          namedRg (mem.mm proc).symrgtbl ((prog proc).regs j)).reverse else [] := by
      intro q
      split_ifs
      · rw [List.flatMap_cons, List.reverse_append, namedRg_reverse, hmid.symrgtbl]
      · rfl
    simp only [hrgs] at hlast
    exact hlast

/-- What a process has enlisted after the loops: what its registers name, once for each
time it was met. -/
theorem enlisted_terminated (prog : P → Program) (procs : List P) (h : OneArea mem)
    (hfree : procs.foldlM (freeRegs prog) mem = some mem') :
    Enlisted mem mem' fun q => (List.replicate (procs.count q)
      (namedRegions (prog q) (mem.mm q).symrgtbl).reverse).flatten := by
  induction procs generalizing mem with
  | nil =>
    obtain rfl := Option.some.inj hfree
    exact .refl h
  | cons proc rest ih =>
    rw [List.foldlM_cons] at hfree
    obtain ⟨mid, hfirst, hrest⟩ := Option.bind_eq_some_iff.mp hfree
    have hmid := enlisted_frees prog proc (List.finRange 10) h hfirst
    have hlast := hmid.trans (ih hmid.area hrest)
    have hrgs : ∀ q, ((List.replicate (rest.count q)
          (namedRegions (prog q) (mid.mm q).symrgtbl).reverse).flatten ++
          if q = proc then ((List.finRange 10).flatMap fun j =>
            namedRg (mem.mm proc).symrgtbl ((prog proc).regs j)).reverse else []) =
        (List.replicate ((proc :: rest).count q)
          (namedRegions (prog q) (mem.mm q).symrgtbl).reverse).flatten := by
      intro q
      rw [hmid.symrgtbl, List.count_cons]
      by_cases hq : q = proc
      · subst hq
        rw [if_pos rfl, if_pos (beq_self_eq_true q), List.replicate_succ', List.flatten_concat]
        rfl
      · rw [if_neg hq, if_neg (by simpa using Ne.symm hq), List.append_nil, Nat.add_zero]
    simp only [hrgs] at hlast
    exact hlast

/-- The free lists after the name is decoded and the processes met have been released. -/
theorem killed_freeRegions (prog : P → Program) (h : OneArea mem) {caller : P} {memrg : BitVec 32}
    {name : Option (List Byte)} {mem1 : MemSys P}
    (hname : procName mem caller memrg = some (name, mem1)) {procs : List P}
    (hfree : procs.foldlM (freeRegs prog) mem1 = some mem') (proc : P) :
    freeRegions (mem'.mm proc) = (List.replicate (procs.count proc)
      (namedRegions (prog proc) (mem.mm proc).symrgtbl).reverse).flatten ++
        freeRegions (mem.mm proc) := by
  have hcopy := procName_enlisted h hname
  have hlist := enlisted_terminated prog procs hcopy.area hfree
  rw [hlist.free, hcopy.free, hcopy.symrgtbl]
  rfl

end Frees

/-! ### The processes -/

section Procs
variable [DecidableEq P] (prio : P → ℕ) (named : P → Bool) (sched : SchedState P)

theorem count_entries_pos {proc : P} :
    0 < sched.runningList.toList.count proc + waiting sched proc ↔ Queued sched proc := by
  constructor
  · intro hpos
    by_contra hnot
    rw [Queued, not_or, not_exists] at hnot
    have hrunning := List.count_eq_zero.mpr hnot.1
    have hwaiting : waiting sched proc = 0 := Finset.sum_eq_zero fun pr hpr =>
      List.count_eq_zero.mpr fun hmem => hnot.2 pr ⟨Finset.mem_range.mp hpr, hmem⟩
    omega
  · rintro (hmem | ⟨pr, hpr, hmem⟩)
    · have := List.count_pos_iff.mpr hmem
      omega
    · exact Nat.add_pos_right _ (count_pos_of_mem_range (level sched) hpr hmem)

/-- The loops meet a process with the name as often as it has an entry. -/
theorem count_terminated (proc : P) : (killSched prio named sched).2.count proc =
    if named proc then sched.runningList.toList.count proc + waiting sched proc else 0 := by
  have hqueue : ∀ q : QueueT P, (killQueue prio named q).2.count proc =
      if named proc then q.toList.count proc else 0 := by
    intro q
    rw [(killQueue_perm prio named q).2.count_eq]
    cases hp : named proc with
    | true => exact List.count_filter hp
    | false => exact List.count_eq_zero.mpr fun hmem => by simp [hp] at hmem
  have hlevels : ((List.range maxPrio).flatMap fun pr =>
      (killQueue prio named (sched.mlqReadyQueue pr)).2).count proc =
      if named proc then waiting sched proc else 0 := by
    rw [count_flatMap_range, Finset.sum_congr rfl fun pr _ => hqueue (sched.mlqReadyQueue pr)]
    split_ifs
    · rfl
    · exact Finset.sum_const_zero
  rw [killSched, List.count_append, hqueue, hlevels]
  split_ifs <;> rfl

theorem not_queued_killSched {proc : P} (hp : named proc = true) :
    ¬Queued (killSched prio named sched).1 proc := by
  obtain ⟨hrunning, hlevel⟩ := count_killSched prio sched proc named
  rw [if_pos hp] at hrunning
  rintro (hmem | ⟨pr, hpr, hmem⟩)
  · exact List.count_eq_zero.mp hrunning hmem
  · have hnone := hlevel pr hpr
    rw [if_pos hp] at hnone
    exact List.count_eq_zero.mp hnone hmem

/-- The loops meet the processes with the name that leave the queues. -/
theorem mem_terminated_iff {proc : P} : proc ∈ (killSched prio named sched).2 ↔
    named proc = true ∧ Queued sched proc ∧ ¬Queued (killSched prio named sched).1 proc := by
  rw [← List.count_pos_iff, count_terminated, ← count_entries_pos]
  cases hp : named proc with
  | true => simp [not_queued_killSched prio named sched hp]
  | false => simp

theorem nodup_terminated_iff : (killSched prio named sched).2.Nodup ↔ ∀ proc, Queued sched proc →
    named proc = true → sched.runningList.toList.count proc + waiting sched proc = 1 := by
  constructor
  · intro hnodup proc hqueued hp
    have hin := (mem_terminated_iff prio named sched).mpr
      ⟨hp, hqueued, not_queued_killSched prio named sched hp⟩
    have hone := List.count_eq_one_of_mem hnodup hin
    rwa [count_terminated, if_pos hp] at hone
  · intro honce
    rw [List.nodup_iff_count_le_one]
    intro proc
    by_cases hin : proc ∈ (killSched prio named sched).2
    · obtain ⟨hp, hqueued, -⟩ := (mem_terminated_iff prio named sched).mp hin
      rw [count_terminated, if_pos hp, honce proc hqueued hp]
    · rw [List.count_eq_zero.mpr hin]
      exact Nat.zero_le 1

end Procs

/-- After the name is decoded, the call counts the processes it removes and releases
their live regions once exactly when every process with the name has one entry and its
registers name its live regions. -/
theorem killall_acts_once_iff [DecidableEq P] {s : RegionSys P}
    (h : Reachable regionSystem (fun _ _ => True) s) (prio : P → ℕ) (prog : P → Program)
    (sched : SchedState P) {caller : P} {memrg : BitVec 32} {name : List Byte} {mem1 : MemSys P}
    (hname : procName s.mem caller memrg = some (some name, mem1)) :
    ∃ rc sched' mem', sysKillall prio prog sched s.mem caller memrg = some (rc, sched', mem') ∧
      (KillsOnce prog name s sched sched' mem' rc ↔ EnteredOnce prog name s sched) := by
  have harea := regionSystem_oneArea h
  obtain ⟨mem', hfree, hcall⟩ := sysKillall_of_name prio prog sched harea hname rfl
  refine ⟨_, _, mem', hcall, ?_⟩
  have hfreed := killed_freeRegions prog harea hname hfree
  set named := fun proc => decide ((prog proc).storedPath = name)
  have hnamed : ∀ proc, named proc = true ↔ (prog proc).storedPath = name := fun proc =>
    decide_eq_true_iff
  have hremoved : ∀ proc, proc ∈ (killSched prio named sched).2.toFinset ↔
      (prog proc).storedPath = name ∧ Queued sched proc ∧
        ¬Queued (killSched prio named sched).1 proc := by
    intro proc
    rw [List.mem_toFinset, mem_terminated_iff, hnamed]
  constructor
  · rintro ⟨removed, hmem, hrc, hreleased⟩ proc hqueued hpath
    obtain rfl : removed = (killSched prio named sched).2.toFinset :=
      Finset.ext fun proc => (hmem proc).trans (hremoved proc).symm
    have hnodup : (killSched prio named sched).2.Nodup :=
      Multiset.toFinset_card_eq_card_iff_nodup.mp (Nat.cast_inj.mp hrc).symm
    have hone := (nodup_terminated_iff prio named sched).mp hnodup proc hqueued ((hnamed proc).mpr hpath)
    have hin := (hremoved proc).mpr ⟨hpath, hqueued,
      not_queued_killSched prio named sched ((hnamed proc).mpr hpath)⟩
    obtain ⟨released, hfree', hperm, -⟩ := hreleased proc
    rw [hfreed, List.count_eq_one_of_mem hnodup (List.mem_toFinset.mp hin), List.replicate_one,
      List.flatten_singleton, List.append_cancel_right_eq] at hfree'
    exact ⟨hone, (List.reverse_perm _).symm.trans (hfree' ▸ hperm hin)⟩
  · intro honce
    have hnodup := (nodup_terminated_iff prio named sched).mpr fun proc hqueued hp =>
      (honce proc hqueued ((hnamed proc).mp hp)).1
    refine ⟨(killSched prio named sched).2.toFinset, hremoved, ?_, fun proc =>
      ⟨_, hfreed proc, fun hmem => ?_, fun hmem => ?_⟩⟩
    · rw [List.toFinset_card_of_nodup hnodup]
    · obtain ⟨hpath, hqueued, -⟩ := (hremoved proc).mp hmem
      rw [List.count_eq_one_of_mem hnodup (List.mem_toFinset.mp hmem), List.replicate_one,
        List.flatten_singleton]
      exact (List.reverse_perm _).trans (honce proc hqueued hpath).2
    · rw [List.count_eq_zero.mpr fun hin => hmem (List.mem_toFinset.mpr hin)]
      rfl

/-- Process 0 calls `killall`; the first register of process 1 holds 3. -/
def threeInRegister (proc : ℕ) : Program :=
  ⟨if proc = 1 then ascii "input/proc/s1" else ascii "input/proc/sc2",
    fun j => if proc = 1 ∧ j = 0 then 3 else 0⟩

theorem threeInRegister_path {proc : ℕ}
    (hpath : (threeInRegister proc).storedPath = ascii "input/proc/s1") : proc = 1 := by
  by_contra hne
  simp only [Program.storedPath, threeInRegister, if_neg hne] at hpath
  exact absurd hpath (by decide)

/-- Two processes before their first calls. -/
def noRegions : RegionSys ℕ := ⟨.start 1024 1024, fun _ _ => none⟩

/-- The name of process 1 is in region 1 of process 0, and process 1 has region 3. -/
def writesNameAllocs : List (ℕ × MemOp) := writesName "input/proc/s1" ++ [(1, .alloc 50 3)]

theorem noRegions_init : ∀ s, (System.ofStep noRegions regionStep).init s →
    (regionSystem : System (RegionSys ℕ) (ℕ × MemOp)).init s := by
  intro s hs
  obtain rfl : s = noRegions := hs
  refine ⟨fun _ => ⟨_, _, _, rfl⟩, ?_, fun _ _ => rfl⟩
  have hlength : ((MemSys.start 1024 1024 : MemSys ℕ).dev .mram).freeFpList.length = 4 := by decide
  exact hlength.trans_le (by norm_num)

theorem regionStep_next : ∀ s a t, (System.ofStep noRegions regionStep).next s a t →
    (regionSystem : System (RegionSys ℕ) (ℕ × MemOp)).next s a t := fun _ _ _ => id

/-- A process that runs has one entry, in `running_list`. -/
theorem killall_acts_once_running :
    ∃ (s : RegionSys ℕ) (mem1 : MemSys ℕ) (rc : ℤ) (sched' : SchedState ℕ) (mem' : MemSys ℕ),
      s.live 1 3 = some 50 ∧
      procName s.mem 0 1 = some (some (ascii "input/proc/s1"), mem1) ∧
      sysKillall (fun _ => 0) threeInRegister (getProc (fun _ => 0) oneQueued).2 s.mem 0 1 =
        some (rc, sched', mem') ∧
      KillsOnce threeInRegister (ascii "input/proc/s1") s (getProc (fun _ => 0) oneQueued).2
        sched' mem' rc := by
  obtain ⟨s, hs, hp⟩ := exists_reachable_of_runAll regionStep (fun _ _ => True) noRegions
    writesNameAllocs (fun (s : RegionSys ℕ) =>
      decide (s.live 1 3 = some 50) &&
      (decide ((procName s.mem 0 1).map Prod.fst = some (some (ascii "input/proc/s1"))) &&
      decide (namedRegions (threeInRegister 1) (s.mem.mm 1).symrgtbl = liveRegions s 1)))
    (by decide +kernel)
  simp only [Bool.and_eq_true, decide_eq_true_eq] at hp
  obtain ⟨hlive, hname, hregions⟩ := hp
  obtain ⟨⟨name, mem1⟩, hname, heq⟩ := Option.map_eq_some_iff.mp hname
  obtain rfl : name = some (ascii "input/proc/s1") := heq
  have honce : EnteredOnce threeInRegister (ascii "input/proc/s1") s
      (getProc (fun _ => 0) oneQueued).2 := by
    intro proc _ hpath
    obtain rfl := threeInRegister_path hpath
    exact ⟨by decide +kernel, hregions ▸ .refl _⟩
  obtain ⟨rc, sched', mem', hcall, hiff⟩ := killall_acts_once_iff
    (hs.mono_system noRegions_init regionStep_next) (fun _ => 0) threeInRegister
    (getProc (fun _ => 0) oneQueued).2 hname
  exact ⟨s, mem1, rc, sched', mem', hlive, hname, hcall, hiff.mpr honce⟩

/-- A process that was just added is met twice. -/
theorem added_process_killed_twice :
    ∃ s : RegionSys ℕ, Reachable regionSystem (fun _ _ => True) s ∧
      SchedReachable (fun _ => 0) oneQueued ∧
      (procName s.mem 0 1).map Prod.fst = some (some (ascii "input/proc/s1")) ∧
      ∃ sched' mem', sysKillall (fun _ => 0) threeInRegister oneQueued s.mem 0 1 =
          some (2, sched', mem') ∧
        freeRegions (mem'.mm 1) =
          liveRegions s 1 ++ liveRegions s 1 ++ freeRegions (s.mem.mm 1) ∧
        ¬KillsOnce threeInRegister (ascii "input/proc/s1") s oneQueued sched' mem' 2 := by
  obtain ⟨s, hs, hp⟩ := exists_reachable_of_runAll regionStep (fun _ _ => True) noRegions
    writesNameAllocs (fun (s : RegionSys ℕ) =>
      decide ((procName s.mem 0 1).map Prod.fst = some (some (ascii "input/proc/s1"))) &&
      (sysKillall (fun _ => 0) threeInRegister oneQueued s.mem 0 1).any
        fun (r : ℤ × SchedState ℕ × MemSys ℕ) => decide (r.1 = 2) &&
          decide (freeRegions (r.2.2.mm 1) =
            liveRegions s 1 ++ liveRegions s 1 ++ freeRegions (s.mem.mm 1)))
    (by decide +kernel)
  simp only [Bool.and_eq_true, decide_eq_true_eq, Option.any_eq_true] at hp
  obtain ⟨hname, ⟨rc, sched', mem'⟩, hcall, hrc, hfree⟩ := hp
  dsimp only at hrc hfree
  rw [hrc] at hcall
  have hsched : SchedReachable (fun _ => 0) oneQueued :=
    .step (a := .add 1) (.init rfl) (show 0 < maxPrio by decide) rfl
  refine ⟨s, hs.mono_system noRegions_init regionStep_next, hsched, hname, sched', mem', hcall,
    hfree, ?_⟩
  rintro ⟨removed, hmem, hcard, -⟩
  have hone : removed ⊆ {1} := by
    intro proc hproc
    exact Finset.mem_singleton.mpr (threeInRegister_path ((hmem proc).mp hproc).1)
  have hle := Finset.card_le_card hone
  rw [Finset.card_singleton] at hle
  omega

end OsSim.Os
