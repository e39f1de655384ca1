import OsSim.Mem.Memphy
import OsSim.Base.Chain

/-!
# The free list as nodes and pointers (mm-memphy.c:114-207)

`Memphy` keeps the free list of a device as a list of frame numbers. Here it is
what the C code builds: nodes from `malloc`, whose contents are whatever the heap
held, joined by `fp_next`. `MEMPHY_format` sets the first node's number but not
its pointer, and leaves `free_fp_list` alone when there is no frame at all.
-/

namespace OsSim.Mem
open OsSim.Base

/-- `struct framephy_struct` (`os-mm.h:64-70`); a `NULL` pointer is `none`. -/
structure FramephyStruct where
  fpn : ℤ
  fpNext : Option ℕ

/-- The live nodes by address. -/
abbrev FpHeap := ℕ → Option FramephyStruct

/-- `struct memphy_struct` with the pointer `free_fp_list`. -/
structure MemphyNodes where
  storage : ℕ → Byte
  maxsz : ℤ
  rdmflg : Bool
  cursor : ℤ
  freeFpList : Option ℕ

/-- What the calls of `malloc` return: address and contents of the node. -/
structure Malloc where
  addr : ℕ → ℕ
  content : ℕ → FramephyStruct

/-- The calls from the `n`th on. -/
def Malloc.after (m : Malloc) (n : ℕ) : Malloc := ⟨fun i => m.addr (n + i), fun i => m.content (n + i)⟩

/-- The addresses are new and all different. -/
structure Malloc.Fresh (m : Malloc) (heap : FpHeap) : Prop where
  injective : Function.Injective m.addr
  unused : ∀ i, heap (m.addr i) = none

/-- One round of the loop of `MEMPHY_format`, `s.2` being `fst`. -/
def formatRound (m : Malloc) (s : FpHeap × ℕ) (iter : ℕ) : Option (FpHeap × ℕ) := do
  let newfst := m.addr iter
  let heap := Function.update s.1 newfst (some { m.content iter with fpn := iter, fpNext := none })
  let last ← heap s.2
  some (Function.update heap s.2 (some { last with fpNext := some newfst }), newfst)

/-- `MEMPHY_format` (`mm-memphy.c:114-140`). -/
def memphyFormatNodes (m : Malloc) (mp : MemphyNodes) (heap : FpHeap) (pagesz : ℤ) :
    Option (ℤ × MemphyNodes × FpHeap) :=
  let numfp := mp.maxsz.tdiv pagesz
  if numfp ≤ 0 then some (-1, mp, heap)
  else do
    let fst := m.addr 0
    let heap := Function.update heap fst (some { m.content 0 with fpn := 0 })
    let (heap, _) ← (List.range' 1 (numfp.toNat - 1)).foldlM (formatRound m) (heap, fst)
    some (0, { mp with freeFpList := some fst }, heap)

/-- `init_memphy` (`mm-memphy.c:193-207`). -/
def initMemphyNodes (m : Malloc) (old : MemphyNodes) (heap : FpHeap) (maxSize randomflg : ℤ) :
    Option (MemphyNodes × FpHeap) :=
  if maxSize < 0 then none
  else do
    let (_, mp, heap) ←
      memphyFormatNodes m { old with storage := fun _ => 0, maxsz := maxSize } heap 256
    some ({ mp with
      rdmflg := randomflg != 0
      cursor := if randomflg != 0 then mp.cursor else 0 }, heap)

/-- `MEMPHY_get_freefp` (`mm-memphy.c:142-158`): the frame, or `none` for -1. -/
def memphyGetFreefpNodes (mp : MemphyNodes) (heap : FpHeap) :
    Option (Option ℤ × MemphyNodes × FpHeap) :=
  match mp.freeFpList with
  | none => some (none, mp, heap)
  | some fp => do
    let node ← heap fp
    some (some node.fpn, { mp with freeFpList := node.fpNext }, Function.update heap fp none)

/-- The results of that many calls of `MEMPHY_get_freefp`. -/
def getFrames : ℕ → MemphyNodes → FpHeap → Option (List (Option ℤ))
  | 0, _, _ => some []
  | n + 1, mp, heap => do
    let (fpn, mp, heap) ← memphyGetFreefpNodes mp heap
    let rest ← getFrames n mp heap
    some (fpn :: rest)

/-! ### Lists of frames -/

def nextOf (heap : FpHeap) (a : ℕ) : Option (Option ℕ) := (heap a).map FramephyStruct.fpNext

/-- The nodes from `p` on hold these frames and end at `NULL`. -/
def FrameChain (heap : FpHeap) (p : Option ℕ) (frames : List ℕ) : Prop :=
  ∃ nodes, Linked (nextOf heap) p nodes ∧
    nodes.map (fun a => (heap a).map FramephyStruct.fpn) = frames.map fun n : ℕ => some (n : ℤ)

theorem nextOf_update (heap : FpHeap) (a : ℕ) (node : Option FramephyStruct) :
    nextOf (Function.update heap a node) =
      Function.update (nextOf heap) a (node.map FramephyStruct.fpNext) := by
  funext b
  unfold nextOf
  by_cases hb : b = a
  · subst hb
    simp
  · simp [hb]

theorem frameChain_none {heap : FpHeap} {frames : List ℕ} :
    FrameChain heap none frames ↔ frames = [] := by
  constructor
  · intro h
    obtain ⟨nodes, hlinked, hframes⟩ := h
    obtain rfl := linked_none.mp hlinked
    exact List.map_eq_nil_iff.mp hframes.symm
  · intro h
    subst h
    exact ⟨[], .nil, rfl⟩

theorem frameChain_nil {heap : FpHeap} {p : Option ℕ} : FrameChain heap p [] ↔ p = none := by
  constructor
  · intro h
    obtain ⟨nodes, hlinked, hframes⟩ := h
    obtain rfl := List.map_eq_nil_iff.mp hframes
    cases hlinked
    rfl
  · intro h
    subst h
    exact frameChain_none.mpr rfl

/-- The head node taken off. -/
theorem FrameChain.pop {heap : FpHeap} {a f : ℕ} {frames : List ℕ}
    (h : FrameChain heap (some a) (f :: frames)) :
    ∃ node, heap a = some node ∧ node.fpn = f ∧
      FrameChain (Function.update heap a none) node.fpNext frames := by
  obtain ⟨nodes, hlinked, hframes⟩ := h
  obtain ⟨q, rest, hq, -, rfl⟩ := linked_some hlinked
  obtain ⟨node, hnode, rfl⟩ := Option.map_eq_some_iff.mp hq
  obtain ⟨q', hq', hpop⟩ := hlinked.pop
  obtain rfl := Option.some.inj (hq.symm.trans hq')
  rw [List.map_cons, List.map_cons, hnode, Option.map_some] at hframes
  obtain ⟨hfirst, hrest⟩ := List.cons.inj hframes
  obtain ⟨ha, -⟩ := List.nodup_cons.mp hlinked.nodup
  refine ⟨node, hnode, Option.some.inj hfirst, rest, by rw [nextOf_update]; exact hpop, ?_⟩
  rw [← hrest]
  refine List.map_congr_left fun b hb => ?_
  have hne : b ≠ a := fun heq => ha (heq ▸ hb)
  rw [Function.update_of_ne hne]

theorem memphyGetFreefpNodes_some {mp : MemphyNodes} {heap : FpHeap} {a : ℕ}
    {node : FramephyStruct} (hp : mp.freeFpList = some a) (ha : heap a = some node) :
    memphyGetFreefpNodes mp heap =
      some (some node.fpn, { mp with freeFpList := node.fpNext }, Function.update heap a none) := by
  unfold memphyGetFreefpNodes
  rw [hp]
  dsimp only
  rw [ha]
  rfl

/-- The calls hand out the frames in order and then answer -1, by induction on the
frames. -/
theorem getFrames_eq (k : ℕ) {mp : MemphyNodes} {heap : FpHeap} {frames : List ℕ}
    (h : FrameChain heap mp.freeFpList frames) :
    getFrames (frames.length + k) mp heap =
      some ((frames.map fun n : ℕ => some (n : ℤ)) ++ List.replicate k none) := by
  induction frames generalizing mp heap with
  | nil =>
    have hnull := frameChain_nil.mp h
    rw [List.length_nil, zero_add]
    induction k with
    | zero => rfl
    | succ k ih =>
      rw [getFrames, memphyGetFreefpNodes, hnull, Option.bind_eq_bind, Option.bind_some]
      dsimp only
      rw [ih]
      rfl
  | cons f frames ih =>
    cases hp : mp.freeFpList with
    | none =>
      rw [hp] at h
      exact absurd (frameChain_none.mp h) (List.cons_ne_nil _ _)
    | some a =>
      rw [hp] at h
      obtain ⟨node, hnode, hfpn, hrest⟩ := h.pop
      have hnext := @ih { mp with freeFpList := node.fpNext } _ hrest
      rw [List.length_cons, Nat.add_right_comm, getFrames, memphyGetFreefpNodes_some hp hnode,
        Option.bind_eq_bind, Option.bind_some]
      dsimp only
      rw [hnext, hfpn]
      rfl

/-! ### The loop of `MEMPHY_format` -/

/-- The nodes 0 to `k` are there: each but the last points to the next. The last one is
the first, with the pointer it came with, or ends the list. -/
structure Built (m : Malloc) (heap0 : FpHeap) (k : ℕ) (heap : FpHeap) : Prop where
  link : ∀ i < k, heap (m.addr i) = some ⟨i, some (m.addr (i + 1))⟩
  last : heap (m.addr k) = some ⟨k, if k = 0 then (m.content 0).fpNext else none⟩
  frame : ∀ a, (∀ i ≤ k, a ≠ m.addr i) → heap a = heap0 a

theorem built_zero (m : Malloc) (heap : FpHeap) :
    Built m heap 0 (Function.update heap (m.addr 0) (some { m.content 0 with fpn := 0 })) where
  link i hi := absurd hi (Nat.not_lt_zero i)
  last := by
    rw [Function.update_self]
    rfl
  frame a ha := Function.update_of_ne (ha 0 le_rfl) _ _

theorem Built.round {m : Malloc} {heap0 heap : FpHeap} {k : ℕ} (h : Built m heap0 k heap)
    (hinj : Function.Injective m.addr) :
    ∃ heap', formatRound m (heap, m.addr k) (k + 1) = some (heap', m.addr (k + 1)) ∧
      Built m heap0 (k + 1) heap' := by
  have hne (i : ℕ) (j : ℕ) (hij : i ≠ j) : m.addr i ≠ m.addr j := fun heq => hij (hinj heq)
  let added := Function.update heap (m.addr (k + 1)) (some ⟨(k + 1 : ℕ), none⟩)
  have hnew : added (m.addr (k + 1)) = some ⟨(k + 1 : ℕ), none⟩ := Function.update_self ..
  have hold : ∀ a ≠ m.addr (k + 1), added a = heap a := fun a ha => Function.update_of_ne ha _ _
  have hlast := (hold _ (hne k (k + 1) (by omega))).trans h.last
  refine ⟨Function.update added (m.addr k) (some ⟨k, some (m.addr (k + 1))⟩), ?_,
    fun i hi => ?_, ?_, fun a ha => ?_⟩
  · exact Option.bind_eq_some_iff.mpr ⟨_, hlast, rfl⟩
  · by_cases hik : i = k
    · subst hik
      rw [Function.update_self]
    · rw [Function.update_of_ne (hne i k hik), hold _ (hne i (k + 1) (by omega)), h.link i (by omega)]
  · rw [Function.update_of_ne (hne (k + 1) k (by omega)), hnew]
    rfl
  · rw [Function.update_of_ne (ha k (by omega)), hold a (ha (k + 1) le_rfl),
      h.frame a fun i hi => ha i (by omega)]

theorem Built.loop {m : Malloc} {heap0 heap : FpHeap} (h : Built m heap0 0 heap)
    (hinj : Function.Injective m.addr) (n : ℕ) :
    ∃ heap', (List.range' 1 n).foldlM (formatRound m) (heap, m.addr 0) =
      some (heap', m.addr n) ∧ Built m heap0 n heap' := by
  induction n with
  | zero => exact ⟨heap, rfl, h⟩
  | succ n ih =>
    obtain ⟨mid, hmid, hbuilt⟩ := ih
    obtain ⟨heap', hround, hbuilt'⟩ := hbuilt.round hinj
    refine ⟨heap', ?_, hbuilt'⟩
    rw [List.range'_concat, List.foldlM_append, hmid, Option.bind_eq_bind, Option.bind_some,
      one_mul, Nat.add_comm 1 n, List.foldlM_cons, hround]
    rfl

/-- The frames of what was built, `tail` being the list behind the first node's old
pointer when there is no other node. -/
theorem Built.frameChain {m : Malloc} {heap0 heap : FpHeap} {k : ℕ} (h : Built m heap0 k heap)
    {tail : List ℕ}
    (htail : FrameChain heap (if k = 0 then (m.content 0).fpNext else none) tail) :
    FrameChain heap (some (m.addr 0)) (List.range (k + 1) ++ tail) := by
  obtain ⟨nodes, hlinked, hframes⟩ := htail
  refine ⟨(List.range (k + 1)).map m.addr ++ nodes, ?_, ?_⟩
  · refine Linked.of_path m.addr (fun i hi => ?_) ?_ hlinked
    · rw [nextOf, h.link i hi]
      rfl
    · rw [nextOf, h.last]
      rfl
  · rw [List.map_append, List.map_append, hframes, List.map_map]
    refine congrArg (· ++ _) (List.map_congr_left fun i hi => ?_)
    have hik := List.mem_range.mp hi
    rw [Function.comp_apply]
    by_cases heq : i = k
    · rw [heq, h.last]
      rfl
    · rw [h.link i (by omega)]
      rfl

/-! ### `init_memphy` -/

theorem tdiv_pagesz (maxSize : ℕ) : (maxSize : ℤ).tdiv 256 = (maxSize / 256 : ℕ) := by
  rw [Int.tdiv_eq_ediv_of_nonneg (by omega)]
  rfl

/-- What `init_memphy` builds: nothing for a device without a frame. -/
theorem initMemphyNodes_cases {m : Malloc} {heap : FpHeap} (hm : m.Fresh heap) (old : MemphyNodes)
    (maxSize : ℕ) (randomflg : ℤ) :
    ∃ mp heap', initMemphyNodes m old heap maxSize randomflg = some (mp, heap') ∧
      (mp.storage = (fun _ => 0) ∧ mp.maxsz = maxSize ∧ mp.rdmflg = (randomflg != 0) ∧
        mp.cursor = if randomflg != 0 then old.cursor else 0) ∧
      (maxSize / 256 = 0 ∧ mp.freeFpList = old.freeFpList ∧ heap' = heap ∨
        ∃ k, maxSize / 256 = k + 1 ∧ mp.freeFpList = some (m.addr 0) ∧ Built m heap k heap') := by
  unfold initMemphyNodes memphyFormatNodes
  dsimp only
  rw [if_neg (by omega), tdiv_pagesz]
  cases hn : maxSize / 256 with
  | zero =>
    rw [if_pos (by simp)]
    exact ⟨_, _, rfl, ⟨rfl, rfl, rfl, rfl⟩, Or.inl ⟨rfl, rfl, rfl⟩⟩
  | succ k =>
    obtain ⟨heap', hloop, hbuilt⟩ := (built_zero m heap).loop hm.injective k
    rw [if_neg (by omega), Int.toNat_natCast, Nat.add_sub_cancel, hloop]
    exact ⟨_, _, rfl, ⟨rfl, rfl, rfl, rfl⟩, Or.inr ⟨k, rfl, rfl, hbuilt⟩⟩

theorem Built.keeps {m : Malloc} {heap heap' : FpHeap} {k : ℕ} (h : Built m heap k heap')
    (hm : m.Fresh heap) : ∀ a, heap a ≠ none → heap' a = heap a := by
  intro a ha
  refine h.frame a fun i _ heq => ?_
  rw [heq, hm.unused i] at ha
  exact ha rfl

/-- The free list ends at `NULL` and holds the frames in order, and the calls of
`MEMPHY_get_freefp` that follow return each once and then -1. -/
def FormatsExactly (m : Malloc) (old : MemphyNodes) (heap : FpHeap) (maxSize : ℕ)
    (randomflg : ℤ) : Prop :=
  ∃ mp heap', initMemphyNodes m old heap maxSize randomflg = some (mp, heap') ∧
    FrameChain heap' mp.freeFpList (List.range (maxSize / 256)) ∧
    ∀ k, getFrames (maxSize / 256 + k) mp heap' =
      some (((List.range (maxSize / 256)).map fun n : ℕ => some (n : ℤ)) ++ List.replicate k none)

/-- From two frames on the list is right. With one frame it is when the node's old
pointer happens to be `NULL`, and with none when `free_fp_list` was. -/
theorem initMemphy_exact_iff {m : Malloc} {heap : FpHeap} (hm : m.Fresh heap) (old : MemphyNodes)
    (maxSize : ℕ) (randomflg : ℤ) :
    FormatsExactly m old heap maxSize randomflg ↔ 2 ≤ maxSize / 256 ∨
      maxSize / 256 = 1 ∧ (m.content 0).fpNext = none ∨
      maxSize / 256 = 0 ∧ old.freeFpList = none := by
  obtain ⟨mp, heap', hinit, -, hcases⟩ := initMemphyNodes_cases hm old maxSize randomflg
  have hexact : FormatsExactly m old heap maxSize randomflg ↔
      FrameChain heap' mp.freeFpList (List.range (maxSize / 256)) := by
    constructor
    · intro h
      obtain ⟨mp', heap'', hinit', hframes, -⟩ := h
      rw [hinit] at hinit'
      obtain ⟨rfl, rfl⟩ := Prod.mk.inj (Option.some.inj hinit')
      exact hframes
    · intro hframes
      refine ⟨mp, heap', hinit, hframes, fun k => ?_⟩
      have hget := getFrames_eq k hframes
      rwa [List.length_range] at hget
  rw [hexact]
  rcases hcases with ⟨hn, hp, rfl⟩ | ⟨k, hn, hp, hbuilt⟩
  · rw [hn, hp, List.range_zero, frameChain_nil]
    simp
  · rw [hn, hp]
    have htail : FrameChain heap' (some (m.addr 0)) (List.range (k + 1)) ↔
        (if k = 0 then (m.content 0).fpNext else none) = none := by
      constructor
      · intro h
        by_cases hk : k = 0
        · subst hk
          obtain ⟨node, hnode, -, hrest⟩ := FrameChain.pop h
          rw [hbuilt.last] at hnode
          obtain rfl := Option.some.inj hnode
          exact frameChain_nil.mp hrest
        · rw [if_neg hk]
      · intro h
        have hframes := hbuilt.frameChain (frameChain_nil.mpr h)
        rwa [List.append_nil] at hframes
    rw [htail]
    by_cases hk : k = 0
    · simp [hk]
    · rw [if_neg hk]
      simp
      omega

/-- Addresses 0, 1, .. in turn, with old contents that point to address 7. -/
def countingMalloc : Malloc := ⟨fun i => i, fun _ => ⟨0, some 7⟩⟩

theorem countingMalloc_fresh : countingMalloc.Fresh fun _ => none :=
  ⟨fun _ _ h => h, fun _ => rfl⟩

theorem initMemphy_exact_four_frames :
    FormatsExactly countingMalloc ⟨fun _ => 0, 0, false, 0, none⟩ (fun _ => none) 1024 1 :=
  (initMemphy_exact_iff countingMalloc_fresh _ 1024 1).mpr (Or.inl (by norm_num))

/-- One frame, and no frame: the call after the last frame follows a pointer that was
never set. -/
theorem initMemphy_not_exact :
    countingMalloc.Fresh (fun _ => none) ∧
      ¬FormatsExactly countingMalloc ⟨fun _ => 0, 0, false, 0, none⟩ (fun _ => none) 256 1 ∧
      ¬FormatsExactly countingMalloc ⟨fun _ => 0, 0, false, 0, some 7⟩ (fun _ => none) 0 1 := by
  refine ⟨countingMalloc_fresh, fun h => ?_, fun h => ?_⟩
  · have hwild : ((initMemphyNodes countingMalloc ⟨fun _ => 0, 0, false, 0, none⟩ (fun _ => none)
        256 1).bind fun r => getFrames 2 r.1 r.2) = none := by decide +kernel
    obtain ⟨mp, heap, hinit, -, hget⟩ := h
    rw [Nat.cast_ofNat] at hinit
    rw [hinit, Option.bind_some] at hwild
    exact absurd (hwild.symm.trans (hget 1)) (by simp)
  · have hwild : ((initMemphyNodes countingMalloc ⟨fun _ => 0, 0, false, 0, some 7⟩ (fun _ => none)
        0 1).bind fun r => getFrames 1 r.1 r.2) = none := by decide +kernel
    obtain ⟨mp, heap, hinit, -, hget⟩ := h
    rw [Nat.cast_zero] at hinit
    rw [hinit, Option.bind_some] at hwild
    exact absurd (hwild.symm.trans (hget 1)) (by simp)

end OsSim.Mem
