import OsSim.Mem.NodeGrowth

/-!
# Bytes and frames on pointers

Reads, writes and the copy of a frame touch no list: they do to a device what they do to
it without its free list.
-/

namespace OsSim.Mem
open OsSim.Base

variable {K : Type} {o : Roots Node K} {c : PcbNodes} {a : Pcb}

/-! ### Accesses -/

theorem storageRead_plain (mp : MemphyStruct) (addr : ℤ) :
    storageRead mp.plain addr = (storageRead mp addr).map fun r => (r.1, r.2.1, r.2.2.plain) := by
  unfold storageRead
  by_cases hin : mp.InStorage addr
  · have hplain : mp.plain.InStorage addr := hin
    rw [if_pos hin, if_pos hplain]
    rfl
  · have hplain : ¬mp.plain.InStorage addr := hin
    rw [if_neg hin, if_neg hplain]
    rfl

theorem storageWrite_plain (mp : MemphyStruct) (addr : ℤ) (data : Byte) :
    storageWrite mp.plain addr data =
      (storageWrite mp addr data).map fun r => (r.1, r.2.plain) := by
  unfold storageWrite
  by_cases hin : mp.InStorage addr
  · have hplain : mp.plain.InStorage addr := hin
    rw [if_pos hin, if_pos hplain]
    rfl
  · have hplain : ¬mp.plain.InStorage addr := hin
    rw [if_neg hin, if_neg hplain]
    rfl

theorem memphyRead_plain (mp : MemphyStruct) (addr : ℤ) :
    memphyRead mp.plain addr = (memphyRead mp addr).map fun r => (r.1, r.2.1, r.2.2.plain) := by
  have hrdm : mp.plain.rdmflg = mp.rdmflg := rfl
  rw [memphyRead, memphyRead, memphySeqRead, memphySeqRead, hrdm]
  cases mp.rdmflg with
  | true => exact storageRead_plain mp addr
  | false => rfl

theorem memphyWrite_plain (mp : MemphyStruct) (addr : ℤ) (data : Byte) :
    memphyWrite mp.plain addr data = (memphyWrite mp addr data).map fun r => (r.1, r.2.plain) := by
  have hrdm : mp.plain.rdmflg = mp.rdmflg := rfl
  rw [memphyWrite, memphyWrite, memphySeqWrite, memphySeqWrite, hrdm]
  cases mp.rdmflg with
  | true => exact storageWrite_plain mp addr data
  | false => rfl

def Devices.plain (dev : Devices) : Devices := fun d => (dev d).plain

theorem plain_update (dev : Devices) (d : Device) (mp : MemphyStruct) :
    Devices.plain (Function.update dev d mp) = Function.update (Devices.plain dev) d mp.plain :=
  Function.comp_update ..

theorem swapCpCell_plain (src : Device) (srcfpn : ℤ) (dst : Device) (dstfpn : ℤ) (dev : Devices)
    (cellidx : ℕ) : swapCpCell src srcfpn dst dstfpn (Devices.plain dev) cellidx =
      (swapCpCell src srcfpn dst dstfpn dev cellidx).map Devices.plain := by
  unfold swapCpCell
  rw [Devices.plain, memphyRead_plain]
  cases memphyRead (dev src) (toInt (srcfpn * pagingPagesz + cellidx)) with
  | none => rfl
  | some r =>
    obtain ⟨rc, data, mp⟩ := r
    cases data with
    | none => rfl
    | some byte =>
      have hwrite : ∀ addr, memphyWrite (Devices.plain (Function.update dev src mp) dst) addr byte =
          (memphyWrite (Function.update dev src mp dst) addr byte).map fun r => (r.1, r.2.plain) :=
        fun addr => memphyWrite_plain _ addr byte
      simp only [Option.bind_eq_bind, Option.map_some, Option.bind_some, ← plain_update, hwrite]
      cases memphyWrite (Function.update dev src mp dst)
          (toInt (dstfpn * pagingPagesz + cellidx)) byte with
      | none => rfl
      | some r => exact congrArg some (plain_update _ _ _).symm

theorem swapCpPage_plain (src : Device) (srcfpn : ℤ) (dst : Device) (dstfpn : ℤ) (dev : Devices) :
    swapCpPage src srcfpn dst dstfpn (Devices.plain dev) =
      (swapCpPage src srcfpn dst dstfpn dev).map Devices.plain := by
  rw [swapCpPage, swapCpPage]
  generalize List.range pagingPagesz = cells
  induction cells generalizing dev with
  | nil => rfl
  | cons cell rest ih =>
    rw [List.foldlM_cons, List.foldlM_cons, swapCpCell_plain]
    cases swapCpCell src srcfpn dst dstfpn dev cell with
    | none => rfl
    | some mid => exact ih mid

/-- An access changes what is stored, not the lists. -/
theorem HoldsPcb.access (h : HoldsPcb o c a) {dev : Devices}
    (hshape : ∀ d, SameShape (a.dev d) (dev d)) :
    HoldsPcb o { c with dev := fun d => (c.dev d).after (dev d).plain } { a with dev := dev } := by
  refine h.data rfl ?_ h.mm fun d => rfl
  ext1 <;> funext k
  · cases k <;> rfl
  · cases k with
    | frames d => exact congrArg _ (hshape d).freeFpList
    | own k => rfl
    | other x => rfl

theorem HoldsPcb.accessOne (h : HoldsPcb o c a) {d : Device} {mp : MemphyStruct}
    (hshape : SameShape (a.dev d) mp) :
    HoldsPcb o { c with dev := Function.update c.dev d ((c.dev d).after mp.plain) }
      { a with dev := Function.update a.dev d mp } := by
  have hall := h.access fun e => sameShape_update hshape e
  have hdev : (fun e => (c.dev e).after (Function.update a.dev d mp e).plain) =
      Function.update c.dev d ((c.dev d).after mp.plain) := by
    funext e
    by_cases he : e = d
    · subst he
      rw [Function.update_self, Function.update_self]
    · rw [Function.update_of_ne he, Function.update_of_ne he, ← h.dev e]
      rfl
  rwa [hdev] at hall

theorem HoldsPcb.memphyRead (h : HoldsPcb o c a) (d : Device) (addr : ℤ) :
    Option.Rel (fun r r' => r.1 = r'.1 ∧ r.2.1 = r'.2.1 ∧
        HoldsPcb o { c with dev := Function.update c.dev d r.2.2 }
          { a with dev := Function.update a.dev d r'.2.2 })
      (Nodes.memphyRead (c.dev d) addr) (Mem.memphyRead (a.dev d) addr) := by
  rw [Nodes.memphyRead, h.dev d, memphyRead_plain]
  cases hread : Mem.memphyRead (a.dev d) addr with
  | none => exact .none
  | some r => exact .some ⟨rfl, rfl, h.accessOne (memphyRead_shape hread)⟩

theorem HoldsPcb.memphyWrite (h : HoldsPcb o c a) (d : Device) (addr : ℤ) (data : Byte) :
    Option.Rel (fun r r' => r.1 = r'.1 ∧
        HoldsPcb o { c with dev := Function.update c.dev d r.2 }
          { a with dev := Function.update a.dev d r'.2 })
      (Nodes.memphyWrite (c.dev d) addr data) (Mem.memphyWrite (a.dev d) addr data) := by
  rw [Nodes.memphyWrite, h.dev d, memphyWrite_plain]
  cases hwrite : Mem.memphyWrite (a.dev d) addr data with
  | none => exact .none
  | some r => exact .some ⟨rfl, h.accessOne (memphyWrite_shape hwrite)⟩

theorem HoldsPcb.mmSwapPage (h : HoldsPcb o c a) (vicfpn swpfpn : ℤ) :
    Option.Rel (SameResult o) (Nodes.mmSwapPage c vicfpn swpfpn)
      (Mem.mmSwapPage a vicfpn swpfpn) := by
  have hdev : (fun d => (c.dev d).plain) = Devices.plain a.dev := funext h.dev
  rw [Nodes.mmSwapPage, Mem.mmSwapPage, Nodes.swapCpPage, hdev, swapCpPage_plain]
  cases hswap : Mem.swapCpPage .mram vicfpn .activeMswp swpfpn a.dev with
  | none => exact .none
  | some dev => exact .some ⟨rfl, h.access fun d => swapCpPage_shape hswap d⟩

variable [DecidableEq K]

theorem HoldsPcb.sysMemmap (h : HoldsPcb o c a) (m : Allocator Node) (regs : ScRegs) :
    Option.Rel (fun r r' => r.1 = r'.1 ∧ SameResult o r.2 r'.2) (Nodes.sysMemmap m c regs)
      (Mem.sysMemmap a regs) := by
  unfold Nodes.sysMemmap Mem.sysMemmap
  dsimp only
  split_ifs
  · exact .some ⟨rfl, rfl, h⟩
  · exact rel_map (h.incVmaLimit m _ _) fun r r' hr => ⟨rfl, rfl, hr.2⟩
  · exact rel_map (h.mmSwapPage _ _) fun r r' hr => ⟨rfl, rfl, hr.2⟩
  · refine rel_bind (h.memphyRead .mram _) fun r r' hr => ?_
    obtain ⟨rc, data, mram⟩ := r
    obtain ⟨rc', data', mram'⟩ := r'
    obtain ⟨rfl, rfl, hend⟩ := hr
    cases data with
    | none => exact .none
    | some byte => exact .some ⟨rfl, rfl, hend⟩
  · exact rel_bind (h.memphyWrite .mram _ _) fun r r' hr => .some ⟨rfl, rfl, hr.2⟩
  · exact .some ⟨rfl, rfl, h⟩

end OsSim.Mem
