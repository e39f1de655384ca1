import OsSim.Mem.Memphy

/-!
# What a page copy moves

`__swap_cp_page` between any two devices, or inside one. After `n` cells the
copy is `copied n`: the first `n` cells of the destination frame hold what the
source frame held before the call, and nothing else has changed. The frames of
a device do not overlap, so a source cell is still the old one when its turn
comes, and copying a frame onto itself changes nothing.
-/

namespace OsSim.Mem
open OsSim.Base

/-- Cell `k` of a frame. -/
def frameCell (fpn : ℤ) (k : ℕ) : ℕ := (fpn * 256).toNat + k

def InFrame (fpn addr : ℤ) : Prop := fpn * 256 ≤ addr ∧ addr < (fpn + 1) * 256

instance instDecidableInFrame (fpn addr : ℤ) : Decidable (InFrame fpn addr) :=
  inferInstanceAs (Decidable (_ ∧ _))

/-- The frame is inside a random-access device; the size is an `int`. -/
structure MemphyStruct.HasFrame (mp : MemphyStruct) (fpn : ℤ) : Prop where
  random : mp.rdmflg = true
  size : mp.maxsz < 2147483648
  nonneg : 0 ≤ fpn
  inside : (fpn + 1) * 256 ≤ mp.maxsz

instance instDecidableHasFrame (mp : MemphyStruct) (fpn : ℤ) : Decidable (mp.HasFrame fpn) :=
  decidable_of_iff (mp.rdmflg = true ∧ mp.maxsz < 2147483648 ∧ 0 ≤ fpn ∧
    (fpn + 1) * 256 ≤ mp.maxsz)
    ⟨fun ⟨h1, h2, h3, h4⟩ => ⟨h1, h2, h3, h4⟩, fun ⟨h1, h2, h3, h4⟩ => ⟨h1, h2, h3, h4⟩⟩

/-- The cells of the storage that `MEMPHY_read` or `MEMPHY_write` touches: a
sequential device turns the access down before it gets there. -/
def memphyTouched (mp : MemphyStruct) (addr : ℤ) : List ℤ := if mp.rdmflg then [addr] else []

/-- `swapCpCell` beside the list of the cells touched so far. -/
def swapCpCellLog (src : Device) (srcfpn : ℤ) (dst : Device) (dstfpn : ℤ)
    (s : Devices × List (Device × ℤ)) (cellidx : ℕ) : Option (Devices × List (Device × ℤ)) := do
  let addrsrc := toInt (srcfpn * pagingPagesz + cellidx)
  let addrdst := toInt (dstfpn * pagingPagesz + cellidx)
  let (_, data, mpsrc) ← memphyRead (s.1 src) addrsrc
  let dev := Function.update s.1 src mpsrc
  let data ← data
  let (_, mpdst) ← memphyWrite (dev dst) addrdst data
  some (Function.update dev dst mpdst,
    s.2 ++ (memphyTouched (s.1 src) addrsrc).map (src, ·) ++
      (memphyTouched (dev dst) addrdst).map (dst, ·))

/-- `__swap_cp_page` with the cells it touches. -/
def swapCpPageLog (src : Device) (srcfpn : ℤ) (dst : Device) (dstfpn : ℤ) (dev : Devices) :
    Option (Devices × List (Device × ℤ)) :=
  (List.range pagingPagesz).foldlM (swapCpCellLog src srcfpn dst dstfpn) (dev, [])

/-! ### The log changes nothing -/

theorem swapCpCellLog_fst (src : Device) (srcfpn : ℤ) (dst : Device) (dstfpn : ℤ)
    (s : Devices × List (Device × ℤ)) (cellidx : ℕ) :
    (swapCpCellLog src srcfpn dst dstfpn s cellidx).map Prod.fst =
      swapCpCell src srcfpn dst dstfpn s.1 cellidx := by
  unfold swapCpCellLog swapCpCell
  dsimp only
  cases hread : memphyRead (s.1 src) (toInt (srcfpn * pagingPagesz + cellidx)) with
  | none => rfl
  | some r =>
    cases hdata : r.2.1 with
    | none => simp [hdata]
    | some data =>
      cases memphyWrite (Function.update s.1 src r.2.2 dst)
        (toInt (dstfpn * pagingPagesz + cellidx)) data <;> simp [hdata]

theorem swapCpPageLog_fst (src : Device) (srcfpn : ℤ) (dst : Device) (dstfpn : ℤ) (dev : Devices) :
    (swapCpPageLog src srcfpn dst dstfpn dev).map Prod.fst =
      swapCpPage src srcfpn dst dstfpn dev := by
  unfold swapCpPageLog swapCpPage
  generalize List.range pagingPagesz = cells
  suffices h : ∀ log, (cells.foldlM (swapCpCellLog src srcfpn dst dstfpn) (dev, log)).map Prod.fst =
      cells.foldlM (swapCpCell src srcfpn dst dstfpn) dev from h []
  induction cells generalizing dev with
  | nil =>
    intro log
    rfl
  | cons cellidx rest ih =>
    intro log
    have hcell := swapCpCellLog_fst src srcfpn dst dstfpn (dev, log) cellidx
    rw [List.foldlM_cons, List.foldlM_cons, ← hcell]
    cases hlog : swapCpCellLog src srcfpn dst dstfpn (dev, log) cellidx with
    | none => rfl
    | some s => exact ih s.1 s.2

/-! ### The devices after some of the cells -/

section Copied
variable {src dst : Device} {srcfpn dstfpn : ℤ} {dev : Devices}

/-- The devices after the first `n` cells. -/
def copied (src : Device) (srcfpn : ℤ) (dst : Device) (dstfpn : ℤ) (dev : Devices) (n : ℕ) :
    Devices :=
  Function.update dev dst { dev dst with
    storage := fun a => if frameCell dstfpn 0 ≤ a ∧ a < frameCell dstfpn n then
      (dev src).storage (frameCell srcfpn (a - frameCell dstfpn 0)) else (dev dst).storage a }

/-- The cells touched by the first `n` rounds. -/
def touched (src : Device) (srcfpn : ℤ) (dst : Device) (dstfpn : ℤ) (n : ℕ) :
    List (Device × ℤ) :=
  (List.range n).flatMap fun k => [(src, (frameCell srcfpn k : ℤ)), (dst, (frameCell dstfpn k : ℤ))]

theorem copied_zero : copied src srcfpn dst dstfpn dev 0 = dev := by
  unfold copied
  have hstorage : (fun a => if frameCell dstfpn 0 ≤ a ∧ a < frameCell dstfpn 0 then
      (dev src).storage (frameCell srcfpn (a - frameCell dstfpn 0)) else (dev dst).storage a) =
      (dev dst).storage := by
    funext a
    exact if_neg (by omega)
  rw [hstorage]
  exact Function.update_eq_self dst dev

theorem copied_shape (n : ℕ) (d : Device) :
    SameShape (dev d) (copied src srcfpn dst dstfpn dev n d) := by
  unfold copied
  refine sameShape_update ?_ d
  exact ⟨rfl, rfl, rfl⟩

theorem MemphyStruct.HasFrame.cell {mp : MemphyStruct} {fpn : ℤ} (h : mp.HasFrame fpn) {k : ℕ}
    (hk : k < 256) :
    toInt (fpn * pagingPagesz + k) = frameCell fpn k ∧ mp.InStorage (frameCell fpn k) := by
  have hnonneg := h.nonneg
  have hinside := h.inside
  have hsize := h.size
  have hcell : fpn * (pagingPagesz : ℕ) + k = frameCell fpn k := by
    unfold frameCell
    push_cast
    omega
  refine ⟨?_, ?_⟩
  · rw [hcell, toInt_of_range (by omega)]
    unfold frameCell
    omega
  · unfold MemphyStruct.InStorage frameCell
    omega

theorem frameCell_inFrame {fpn : ℤ} (h : 0 ≤ fpn) {k : ℕ} (hk : k < 256) :
    InFrame fpn (frameCell fpn k) := by
  unfold InFrame frameCell
  omega

/-- The cell that is read next still holds what it held before the call: on one
device it lies in another frame, or it is the cell that is written next. -/
theorem copied_source (hsrc : 0 ≤ srcfpn) (hdst : 0 ≤ dstfpn) {n : ℕ} (hn : n < 256) :
    (copied src srcfpn dst dstfpn dev n src).storage (frameCell srcfpn n) =
      (dev src).storage (frameCell srcfpn n) := by
  unfold copied
  by_cases hsame : src = dst
  · subst hsame
    rw [Function.update_self]
    refine if_neg ?_
    unfold frameCell
    intro hcell
    have hfpn : srcfpn = dstfpn := by omega
    subst hfpn
    omega
  · rw [Function.update_of_ne hsame]

theorem memphyRead_copied (hsrc : (dev src).HasFrame srcfpn) (hdst : 0 ≤ dstfpn) {n : ℕ}
    (hn : n < 256) :
    memphyRead (copied src srcfpn dst dstfpn dev n src) (toInt (srcfpn * pagingPagesz + n)) =
      some (0, some ((dev src).storage (frameCell srcfpn n)),
        copied src srcfpn dst dstfpn dev n src) := by
  have hshape := @copied_shape src dst srcfpn dstfpn dev n src
  obtain ⟨haddr, hin⟩ := hsrc.cell hn
  rw [haddr, memphyRead_eq (hshape.rdmflg.trans hsrc.random), if_pos, Int.toNat_natCast,
    copied_source hsrc.nonneg hdst hn]
  rwa [MemphyStruct.InStorage, hshape.maxsz]

theorem memphyWrite_copied (hdst : (dev dst).HasFrame dstfpn) {n : ℕ} (hn : n < 256) :
    memphyWrite (copied src srcfpn dst dstfpn dev n dst) (toInt (dstfpn * pagingPagesz + n))
        ((dev src).storage (frameCell srcfpn n)) =
      some (0, copied src srcfpn dst dstfpn dev (n + 1) dst) := by
  have hshape := @copied_shape src dst srcfpn dstfpn dev n dst
  obtain ⟨haddr, hin⟩ := hdst.cell hn
  rw [haddr, memphyWrite_eq (hshape.rdmflg.trans hdst.random), if_pos, Int.toNat_natCast]
  · unfold copied
    simp only [Function.update_self, Option.some.injEq, Prod.mk.injEq, true_and]
    congr 1
    funext a
    by_cases ha : a = frameCell dstfpn n
    · subst ha
      rw [Function.update_self, if_pos (by unfold frameCell; omega)]
      congr 1
      unfold frameCell
      omega
    · rw [Function.update_of_ne ha]
      refine if_congr ?_ rfl rfl
      unfold frameCell at *
      omega
  · rwa [MemphyStruct.InStorage, hshape.maxsz]

/-- One round. -/
theorem swapCpCellLog_copied (hsrc : (dev src).HasFrame srcfpn) (hdst : (dev dst).HasFrame dstfpn)
    {n : ℕ} (hn : n < 256) :
    swapCpCellLog src srcfpn dst dstfpn
        (copied src srcfpn dst dstfpn dev n, touched src srcfpn dst dstfpn n) n =
      some (copied src srcfpn dst dstfpn dev (n + 1), touched src srcfpn dst dstfpn (n + 1)) := by
  have hshape := @copied_shape src dst srcfpn dstfpn dev n
  have hsame : Function.update (copied src srcfpn dst dstfpn dev n) dst
      (copied src srcfpn dst dstfpn dev (n + 1) dst) =
      copied src srcfpn dst dstfpn dev (n + 1) := by
    unfold copied
    rw [Function.update_idem, Function.update_self]
  unfold swapCpCellLog memphyTouched
  dsimp only
  rw [memphyRead_copied hsrc hdst.nonneg hn, Option.bind_eq_bind, Option.bind_some]
  dsimp only
  rw [Function.update_eq_self, Option.bind_eq_bind, Option.bind_some, memphyWrite_copied hdst hn,
    Option.bind_eq_bind, Option.bind_some, hsame, if_pos ((hshape src).rdmflg.trans hsrc.random),
    if_pos ((hshape dst).rdmflg.trans hdst.random), (hsrc.cell hn).1, (hdst.cell hn).1]
  simp [touched, List.range_succ]

/-- The whole loop. -/
theorem swapCpPageLog_eq (hsrc : (dev src).HasFrame srcfpn) (hdst : (dev dst).HasFrame dstfpn) :
    swapCpPageLog src srcfpn dst dstfpn dev =
      some (copied src srcfpn dst dstfpn dev 256, touched src srcfpn dst dstfpn 256) := by
  suffices h : ∀ n ≤ 256, (List.range n).foldlM (swapCpCellLog src srcfpn dst dstfpn) (dev, []) =
      some (copied src srcfpn dst dstfpn dev n, touched src srcfpn dst dstfpn n) from
    h 256 le_rfl
  intro n hn
  induction n with
  | zero =>
    rw [copied_zero]
    rfl
  | succ n ih =>
    rw [List.range_succ, List.foldlM_append, ih (by omega), Option.bind_eq_bind, Option.bind_some,
      List.foldlM_cons, swapCpCellLog_copied hsrc hdst (by omega)]
    rfl

theorem copied_cell {k : ℕ} (hk : k < 256) :
    (copied src srcfpn dst dstfpn dev 256 dst).storage (frameCell dstfpn k) =
      (dev src).storage (frameCell srcfpn k) := by
  unfold copied
  rw [Function.update_self]
  dsimp only
  rw [if_pos (by unfold frameCell; omega)]
  congr 1
  unfold frameCell
  omega

theorem copied_frame (hdst : 0 ≤ dstfpn) {d : Device} {a : ℕ} (ha : d = dst → ¬InFrame dstfpn a) :
    (copied src srcfpn dst dstfpn dev 256 d).storage a = (dev d).storage a := by
  unfold copied
  by_cases hd : d = dst
  · subst hd
    rw [Function.update_self]
    refine if_neg ?_
    have hout := ha rfl
    unfold InFrame at hout
    unfold frameCell
    omega
  · rw [Function.update_of_ne hd]

theorem touched_inFrame (hsrc : 0 ≤ srcfpn) (hdst : 0 ≤ dstfpn) {cell : Device × ℤ}
    (h : cell ∈ touched src srcfpn dst dstfpn 256) :
    cell.1 = src ∧ InFrame srcfpn cell.2 ∨ cell.1 = dst ∧ InFrame dstfpn cell.2 := by
  obtain ⟨k, hk, hcell⟩ := List.mem_flatMap.mp h
  have hk := List.mem_range.mp hk
  cases List.mem_cons.mp hcell with
  | inl hcell =>
    subst hcell
    exact Or.inl ⟨rfl, frameCell_inFrame hsrc hk⟩
  | inr hcell =>
    obtain rfl := List.mem_singleton.mp hcell
    exact Or.inr ⟨rfl, frameCell_inFrame hdst hk⟩

end Copied

/-- The destination frame gets what the source frame held, no other cell of any
device changes, and no other cell is touched. -/
theorem swapCpPage_exact {src dst : Device} {srcfpn dstfpn : ℤ} {dev : Devices}
    (hsrc : (dev src).HasFrame srcfpn) (hdst : (dev dst).HasFrame dstfpn) :
    ∃ dev' log, swapCpPage src srcfpn dst dstfpn dev = some dev' ∧
      swapCpPageLog src srcfpn dst dstfpn dev = some (dev', log) ∧
      (∀ k < 256, (dev' dst).storage (frameCell dstfpn k) =
        (dev src).storage (frameCell srcfpn k)) ∧
      (∀ d (a : ℕ), (d = dst → ¬InFrame dstfpn a) → (dev' d).storage a = (dev d).storage a) ∧
      ∀ cell ∈ log, cell.1 = src ∧ InFrame srcfpn cell.2 ∨ cell.1 = dst ∧ InFrame dstfpn cell.2 := by
  have hlog := swapCpPageLog_eq hsrc hdst
  have hpage := swapCpPageLog_fst src srcfpn dst dstfpn dev
  rw [hlog] at hpage
  exact ⟨_, _, hpage.symm, hlog, fun k hk => copied_cell hk,
    fun d a ha => copied_frame hdst.nonneg ha,
    fun cell => touched_inFrame hsrc.nonneg hdst.nonneg⟩

/-- Devices of four frames whose cells hold the low byte of their address plus `n`. -/
def numbered (n : ℕ) : MemphyStruct :=
  { ramDevice 1024 with storage := fun a => BitVec.ofNat 8 (a + n) }

/-- Inside one device the source frame stays as it is, and from the RAM to the swap the
byte at offset 3 of frame 1 arrives at offset 3 of frame 3. -/
theorem swapCpPage_exact_numbered :
    (∃ dev', swapCpPage .mram 1 .mram 2 (fun _ => numbered 0) = some dev' ∧
      (dev' .mram).storage 515 = 3 ∧ (dev' .mram).storage 259 = 3) ∧
    ∃ dev', swapCpPage .mram 1 .activeMswp 3 (fun d => if d = .mram then numbered 7 else numbered 0) =
      some dev' ∧ (dev' .activeMswp).storage 771 = 10 ∧ (dev' .activeMswp).storage 770 = 9 ∧
        (dev' .activeMswp).storage 767 = 255 := by
  constructor
  · obtain ⟨dev', log, hrun, -, hcells, hframe, -⟩ := @swapCpPage_exact .mram .mram 1 2
      (fun _ => numbered 0) (by decide) (by decide)
    refine ⟨dev', hrun, (hcells 3 (by norm_num)).trans (by decide), ?_⟩
    exact (hframe .mram 259 fun _ => by unfold InFrame; norm_num).trans (by decide)
  · obtain ⟨dev', log, hrun, -, hcells, hframe, -⟩ := @swapCpPage_exact .mram .activeMswp 1 3
      (fun d => if d = .mram then numbered 7 else numbered 0) (by decide) (by decide)
    refine ⟨dev', hrun, (hcells 3 (by norm_num)).trans (by decide),
      (hcells 2 (by norm_num)).trans (by decide), ?_⟩
    exact (hframe .activeMswp 767 fun _ => by unfold InFrame; norm_num).trans (by decide)

end OsSim.Mem
