import OsSim.Base.Scanf
import OsSim.Os.Paged

/-!
# Loading a program (loader.c)

`load` reads a header of two numbers and then one instruction a round: the opcode
with `fscanf("%s")`, its arguments with `fscanf("%u ..\n")`, and those of a system
call with `fgets` and `sscanf("%d%d%d%d")`. The memory of the code comes from `malloc`
and is not cleared, so a field that no conversion assigns keeps what it held.
`input/proc/sc2` gives system call 101 two of its four arguments.
-/

namespace OsSim.Os
open OsSim.Base OsSim.Sched OsSim.Mem

/-- What a function of the loader can end in; `exit` is `exit(1)`. -/
inductive Outcome (α : Type) where
  | ok (x : α)
  | exit
  | undefined

namespace Outcome
variable {α β : Type}

def bind : Outcome α → (α → Outcome β) → Outcome β
  | .ok x, f => f x
  | .exit, _ => .exit
  | .undefined, _ => .undefined

instance instMonadOutcome : Monad Outcome where
  pure := .ok
  bind := bind

/-- The result of a library call that can be undefined. -/
def ofOption : Option α → Outcome α
  | none => .undefined
  | some x => .ok x

@[simp] theorem ok_bind (x : α) (f : α → Outcome β) : (Outcome.ok x >>= f) = f x := rfl

@[simp] theorem ofOption_some (x : α) : ofOption (some x) = .ok x := rfl

end Outcome

/-! ### The code -/

def optCalc : List Char := ['c', 'a', 'l', 'c']

def optAlloc : List Char := ['a', 'l', 'l', 'o', 'c']

def optFree : List Char := ['f', 'r', 'e', 'e']

def optRead : List Char := ['r', 'e', 'a', 'd']

def optWrite : List Char := ['w', 'r', 'i', 't', 'e']

def optSyscall : List Char := ['s', 'y', 's', 'c', 'a', 'l', 'l']

/-- `get_opcode` (`loader.c:16-33`). -/
def getOpcode (opt : List Char) : Outcome Opcode :=
  if opt = optCalc then .ok .calc
  else if opt = optAlloc then .ok .alloc
  else if opt = optFree then .ok .free
  else if opt = optRead then .ok .read
  else if opt = optWrite then .ok .write
  else if opt = optSyscall then .ok .syscall
  else .exit

/-- The values a call assigns to `&arg_0`, `&arg_1`, .. in this order. -/
def Inst.assign (ins : Inst) : List (BitVec 32) → Inst
  | [] => ins
  | [a] => { ins with arg0 := a }
  | [a, b] => { ins with arg0 := a, arg1 := b }
  | [a, b, c] => { ins with arg0 := a, arg1 := b, arg2 := c }
  | a :: b :: c :: d :: _ => { ins with arg0 := a, arg1 := b, arg2 := c, arg3 := d }

/-- What `malloc` returned: `proc->priority`, `code->size` and `code->text`. -/
structure Malloced where
  priority : BitVec 32
  size : BitVec 32
  text : ℕ → Inst

/-- The file and the two buffers on the stack of `load`, which nothing initialises. -/
structure LoadState where
  file : List Char
  opcode : Option (List Char)
  buf : Option (List Char)

/-- `fscanf(file, "%s", opcode)`, ten bytes. -/
def readOpcode (st : LoadState) : Outcome LoadState :=
  match scanWord st.file with
  | .stop rest => .ok { st with file := rest }
  | .got word rest =>
    if word.length < 10 then .ok { st with file := rest, opcode := some word } else .undefined

/-- The arguments of an opcode (`loader.c:65-97`): the values assigned and the state after. -/
def readArgs (st : LoadState) : Opcode → Outcome (List (BitVec 32) × LoadState)
  | .calc => .ok ([], st)
  | .alloc => fromFile [.uint, .space, .uint, .space]
  | .free => fromFile [.uint, .space]
  | .read => fromFile [.uint, .space, .uint, .space, .uint, .space]
  | .write => fromFile [.uint, .space, .uint, .space, .uint, .space]
  | .syscall => do
    -- at the end of the file the buffer keeps the line of an earlier round
    let st := match fgets 200 st.file with
      | none => st
      | some (line, rest) => { st with file := rest, buf := some line }
    let buf ← Outcome.ofOption st.buf
    let (args, _) ← Outcome.ofOption (scanf [.int, .int, .int, .int] (cString buf))
    .ok (args, st)
where
  fromFile (format : List Directive) : Outcome (List (BitVec 32) × LoadState) := do
    let (args, rest) ← Outcome.ofOption (scanf format st.file)
    .ok (args, { st with file := rest })

/-- One round: `text[i]`, which held `ins`, and the state after. -/
def loadRound (ins : Inst) (st : LoadState) : Outcome (Inst × LoadState) := do
  let st ← readOpcode st
  let opt ← Outcome.ofOption st.opcode
  let opcode ← getOpcode (cString opt)
  let (args, st) ← readArgs st opcode
  .ok ({ ins with opcode := opcode }.assign args, st)

/-- The loop from `text[i]` on, for the rounds to come. -/
def loadLoop (text : ℕ → Inst) (i : ℕ) : ℕ → LoadState → Outcome (List Inst)
  | 0, _ => .ok []
  | n + 1, st => do
    let (ins, st) ← loadRound (text i) st
    let rest ← loadLoop text (i + 1) n st
    .ok (ins :: rest)

/-- The fields of `struct pcb_t` that `load` sets. -/
structure LoadedPcb where
  pid : BitVec 32
  path : List Byte
  priority : BitVec 32
  code : List Inst
  pc : BitVec 32
  bp : BitVec 32

/-- `load` (`loader.c:35-102`); `avail_pid` and the disk are given. -/
def load (availPid : BitVec 32) (fopen : List Byte → Option (List Char)) (path : List Byte)
    (mem : Malloced) : Outcome (LoadedPcb × BitVec 32) :=
  match fopen path with
  | none => .exit
  | some file => do
    let (header, rest) ← Outcome.ofOption (scanf [.uint, .space, .uint] file)
    let text ← loadLoop mem.text 0 (header.getD 1 mem.size).toNat ⟨rest, none, none⟩
    .ok ({ pid := availPid
           path := snprintf (2 * sizeofPath + 1) path
           priority := header.getD 0 mem.priority
           code := text
           pc := 0
           bp := 1024 }, availPid + 1)

/-! ### Printed programs -/

/-- The arguments a system call is written with: one to four. -/
structure SyscallArgs where
  args : List (BitVec 32)
  pos : 0 < args.length
  le : args.length ≤ 4

/-- An instruction with the arguments its opcode takes. -/
inductive Line where
  | calc
  | alloc (size rgid : BitVec 32)
  | free (rgid : BitVec 32)
  | read (source offset destination : BitVec 32)
  | write (data destination offset : BitVec 32)
  | syscall (args : SyscallArgs)

def Line.opcode : Line → Opcode
  | .calc => .calc
  | .alloc .. => .alloc
  | .free _ => .free
  | .read .. => .read
  | .write .. => .write
  | .syscall _ => .syscall

def Line.args : Line → List (BitVec 32)
  | .calc => []
  | .alloc size rgid => [size, rgid]
  | .free rgid => [rgid]
  | .read source offset destination => [source, offset, destination]
  | .write data destination offset => [data, destination, offset]
  | .syscall a => a.args

/-- The arguments as printed: signed for a system call only. -/
def Line.numbers (l : Line) : List ℤ :=
  match l with
  | .syscall a => a.args.map BitVec.toInt
  | l => l.args.map fun x => (x.toNat : ℤ)

def optName : Opcode → List Char
  | .calc => optCalc
  | .alloc => optAlloc
  | .free => optFree
  | .read => optRead
  | .write => optWrite
  | .syscall => optSyscall

def Line.text (l : Line) : List Char := optName l.opcode ++ printArgs l.numbers

/-- The lines still to be read, each on a line of its own; the last may end the file. -/
def textAfter (last : Bool) (lines : List Line) : List Char :=
  lines.flatMap (fun l => newline :: l.text) ++ if last then [newline] else []

/-- The file of a program. -/
def programText (last : Bool) (priority : BitVec 32) (lines : List Line) : List Char :=
  printInt priority.toNat ++ ' ' :: printInt lines.length ++ textAfter last lines

/-- The instruction that a line means: what it omits is 0. -/
def Line.meaning (l : Line) : Inst := Inst.assign ⟨l.opcode, 0, 0, 0, 0⟩ l.args

/-- The opcode and the arguments it takes. -/
def Inst.taken (ins : Inst) : Opcode × List (BitVec 32) :=
  (ins.opcode, match ins.opcode with
    | .calc => []
    | .alloc => [ins.arg0, ins.arg1]
    | .free => [ins.arg0]
    | .read => [ins.arg0, ins.arg1, ins.arg2]
    | .write => [ins.arg0, ins.arg1, ins.arg2]
    | .syscall => [ins.arg0, ins.arg1, ins.arg2, ins.arg3])

/-- Nothing in the paged build looks at the other arguments. -/
theorem memOp_of_taken {ins ins' : Inst} (h : ins.taken = ins'.taken) : memOp ins = memOp ins' := by
  obtain ⟨opcode, a, b, c, d⟩ := ins
  obtain ⟨opcode', a', b', c', d'⟩ := ins'
  obtain rfl : opcode = opcode' := congrArg Prod.fst h
  unfold Inst.taken at h
  cases opcode <;> simp_all [memOp]

theorem isKillall_of_taken {ins ins' : Inst} (h : ins.taken = ins'.taken) :
    ins.isKillall = ins'.isKillall := by
  obtain ⟨opcode, a, b, c, d⟩ := ins
  obtain ⟨opcode', a', b', c', d'⟩ := ins'
  obtain rfl : opcode = opcode' := congrArg Prod.fst h
  unfold Inst.taken at h
  unfold Inst.isKillall
  cases opcode with
  | syscall => simp_all
  | _ => rfl

theorem map_of_taken {β : Type} {f : Inst → β} (hf : ∀ ins ins', ins.taken = ins'.taken → f ins = f ins')
    {code : List Inst} {lines : List Line}
    (h : code.map Inst.taken = lines.map fun l => l.meaning.taken) :
    code.map f = lines.map fun l => f l.meaning := by
  induction code generalizing lines with
  | nil =>
    obtain rfl := List.map_eq_nil_iff.mp h.symm
    rfl
  | cons ins code ih =>
    cases lines with
    | nil => simp at h
    | cons l lines =>
      obtain ⟨hfirst, hrest⟩ := List.cons.inj h
      rw [List.map_cons, List.map_cons, hf _ _ hfirst, ih hrest]

/-- The argument fields that the opcode takes and the line omits, in an instruction `ins`. -/
def Line.omitted (ins : Inst) : Line → List (BitVec 32)
  | .syscall a => [ins.arg0, ins.arg1, ins.arg2, ins.arg3].drop a.args.length
  | _ => []

/-- The line gives every argument its opcode takes. -/
def Line.Complete : Line → Prop
  | .syscall a => a.args.length = 4
  | _ => True

/-- What a round leaves of `ins` in the place of the line. -/
def Line.loaded (l : Line) (ins : Inst) : Inst := { ins with opcode := l.opcode }.assign l.args

/-- `load` returns the priority and the instructions of the file, with `pc = 0`. -/
def LoadsExactly (last : Bool) (priority : BitVec 32) (lines : List Line) (mem : Malloced) : Prop :=
  ∀ availPid fopen path, fopen path = some (programText last priority lines) →
    ∃ proc, load availPid fopen path mem = .ok (proc, availPid + 1) ∧
      proc.priority = priority ∧ proc.pc = 0 ∧
      proc.code.map Inst.taken = lines.map fun l => l.meaning.taken

theorem taken_loaded_iff (l : Line) (ins : Inst) :
    (l.loaded ins).taken = l.meaning.taken ↔ ∀ x ∈ l.omitted ins, x = 0 := by
  unfold Line.loaded Line.meaning Line.omitted
  cases l with
  | syscall a =>
    obtain ⟨args, hpos, hle⟩ := a
    match args with
    | [] => simp at hpos
    | [a] => simp [Line.args, Line.opcode, Inst.assign, Inst.taken]
    | [a, b] => simp [Line.args, Line.opcode, Inst.assign, Inst.taken]
    | [a, b, c] => simp [Line.args, Line.opcode, Inst.assign, Inst.taken]
    | [a, b, c, d] => simp [Line.args, Line.opcode, Inst.assign, Inst.taken]
    | _ :: _ :: _ :: _ :: _ :: _ =>
      simp only [List.length_cons] at hle
      omega
  | _ => simp [Line.args, Line.opcode, Inst.assign, Inst.taken]

/-! ### A round of the loader -/

theorem getOpcode_optName (opcode : Opcode) : getOpcode (cString (optName opcode)) = .ok opcode := by
  cases opcode <;> rfl

theorem optName_isSpace {opcode : Opcode} {c : Char} (h : c ∈ optName opcode) :
    isSpace c = false := by
  have hall : ∀ c ∈ optName opcode, isSpace c = false := by
    cases opcode <;>
      simp [optName, optCalc, optAlloc, optFree, optRead, optWrite, optSyscall, isSpace]
  exact hall c h

theorem optName_ne_nil (opcode : Opcode) : optName opcode ≠ [] := by cases opcode <;> nofun

/-- The text of the lines is what is left of the file, blanks apart. -/
def Ready (last : Bool) : List Line → List Char → Prop
  | [], _ => True
  | l :: ls, s => ∃ blanks, (∀ c ∈ blanks, isSpace c = true) ∧ s = blanks ++ (l.text ++ textAfter last ls)

theorem ready_skipSpace {last : Bool} {lines : List Line} {s : List Char} (h : Ready last lines s) :
    Ready last lines (skipSpace s) := by
  cases lines with
  | nil => trivial
  | cons l ls =>
    obtain ⟨blanks, hblanks, rfl⟩ := h
    refine ⟨[], by simp, ?_⟩
    rw [skipSpace_append hblanks]
    unfold Line.text
    cases hname : optName l.opcode with
    | nil => exact absurd hname (optName_ne_nil _)
    | cons c name =>
      exact skipSpace_of_head (@optName_isSpace l.opcode c (by simp [hname]))

/-- The end of a line: the file ends too, or the next line follows. -/
theorem textAfter_cases (last : Bool) (lines : List Line) :
    textAfter last lines = [] ∧ lines = [] ∨
      ∃ s, textAfter last lines = newline :: s ∧ Ready last lines s := by
  cases lines with
  | nil =>
    cases last with
    | false => exact .inl ⟨rfl, rfl⟩
    | true => exact .inr ⟨[], rfl, trivial⟩
  | cons l ls =>
    refine .inr ⟨l.text ++ textAfter last ls, ?_, [], by simp, rfl⟩
    simp [textAfter]

theorem ready_textAfter (last : Bool) (lines : List Line) :
    Ready last lines (textAfter last lines) := by
  cases lines with
  | nil => trivial
  | cons l ls =>
    refine ⟨[newline], by simp [isSpace_newline], ?_⟩
    simp [textAfter]

theorem head_textAfter {last : Bool} {lines : List Line} {c : Char}
    (h : c ∈ (textAfter last lines).head?) : isSpace c = true := by
  cases textAfter_cases last lines with
  | inl hend => simp [hend.1] at h
  | inr hline =>
    obtain ⟨s, hs, -⟩ := hline
    obtain rfl : newline = c := by simpa [hs] using h
    exact isSpace_newline

theorem noDigit_textAfter (last : Bool) (lines : List Line) : NoDigit (textAfter last lines) :=
  noDigit_of_head fun _ => head_textAfter

/-- The arguments of an opcode that reads them with `fscanf("%u ..\n")`. -/
theorem fromFile_uints {last : Bool} {ls : List Line} {st : LoadState} {xs : List (BitVec 32)}
    (hst : st.file = printArgs (xs.map fun x => (x.toNat : ℤ)) ++ textAfter last ls)
    (hne : 0 < xs.length) :
    ∃ st', readArgs.fromFile st (uints xs.length) = .ok (xs, st') ∧ Ready last ls st'.file := by
  have hfits : ∀ x ∈ xs.map fun x => (x.toNat : ℤ), Directive.uint.Fits x := by
    intro x hx
    obtain ⟨y, -, rfl⟩ := List.mem_map.mp hx
    exact fits_uint_natCast.mpr y.isLt
  have hvalues : (xs.map fun x => (x.toNat : ℤ)).map (BitVec.ofInt 32) = xs := by
    simp [List.map_map, Function.comp_def]
  have hscan := scanf_uints (noDigit_textAfter last ls) hfits
  rw [List.length_map, hvalues, ← hst] at hscan
  have hread : scanf (uints xs.length) st.file = some (xs, skipSpace (textAfter last ls)) := by
    rw [← hscan]
    cases hn : xs.length with
    | zero => omega
    | succ n => exact (scanf_skipSpace _ _ _).symm
  refine ⟨{ st with file := skipSpace (textAfter last ls) }, ?_, ready_skipSpace (ready_textAfter _ _)⟩
  unfold readArgs.fromFile
  rw [hread]
  rfl

/-- `fgets` takes the arguments and the end of their line. -/
theorem fgets_args {last : Bool} {ls : List Line} {xs : List ℤ}
    (hx : ∀ x ∈ xs, Directive.int.Fits x) (hpos : 0 < xs.length) (hle : xs.length ≤ 4) :
    ∃ blanks rest, fgets 200 (printArgs xs ++ textAfter last ls) =
      some (printArgs xs ++ blanks, rest) ∧ (∀ c ∈ blanks, isSpace c = true) ∧
      Ready last ls rest := by
  have hlen := printArgs_length hx
  have hne : printArgs xs ≠ [] := by
    cases xs with
    | nil => simp at hpos
    | cons x xs => simp [printArgs]
  have hline : newline ∉ printArgs xs := by
    intro hmem
    have := printArgs_chars hmem
    rw [toNat_newline] at this
    omega
  cases textAfter_cases last ls with
  | inl hend =>
    obtain ⟨htext, rfl⟩ := hend
    refine ⟨[], [], ?_, by simp, trivial⟩
    unfold fgets
    rw [htext, List.append_nil, if_neg hne, takeLine_end hline (by omega)]
  | inr hnext =>
    obtain ⟨s, htext, hready⟩ := hnext
    refine ⟨[newline], s, ?_, by simp [isSpace_newline], hready⟩
    unfold fgets
    rw [htext, if_neg (by simp), takeLine_newline hline (by omega)]

/-- The arguments of a system call, and no more, are assigned. -/
theorem readArgs_syscall {last : Bool} {ls : List Line} {st : LoadState} (a : SyscallArgs)
    (hst : st.file = printArgs (a.args.map BitVec.toInt) ++ textAfter last ls) :
    ∃ st', readArgs st .syscall = .ok (a.args, st') ∧ Ready last ls st'.file := by
  have hfits : ∀ x ∈ a.args.map BitVec.toInt, Directive.int.Fits x := by
    intro x hx
    obtain ⟨y, -, rfl⟩ := List.mem_map.mp hx
    exact fits_int_iff.mpr ⟨y.le_toInt, y.toInt_lt⟩
  have hvalues : (a.args.map BitVec.toInt).map (BitVec.ofInt 32) = a.args := by
    simp [List.map_map, Function.comp_def]
  have hle : (a.args.map BitVec.toInt).length ≤ 4 := by simpa using a.le
  obtain ⟨blanks, rest, hgets, hblanks, hready⟩ :=
    @fgets_args last ls _ hfits (by simpa using a.pos) hle
  have hstring : cString (printArgs (a.args.map BitVec.toInt) ++ blanks) =
      printArgs (a.args.map BitVec.toInt) ++ blanks := by
    refine cString_of_ne fun c hc => ?_
    cases List.mem_append.mp hc with
    | inl hargs =>
      have := printArgs_chars hargs
      omega
    | inr hblank =>
      have := hblanks c hblank
      intro hzero
      simp [isSpace, hzero] at this
  obtain ⟨rest', hscan⟩ := scanf_printArgs hblanks hfits hle
  refine ⟨{ st with
    file := rest, buf := some (printArgs (a.args.map BitVec.toInt) ++ blanks) }, ?_, hready⟩
  have hscan' : scanf [.int, .int, .int, .int]
      (printArgs (a.args.map BitVec.toInt) ++ blanks) = some (a.args, rest') := by
    rw [hvalues] at hscan
    exact hscan
  unfold readArgs
  simp only [hst, hgets, Outcome.ofOption_some, Outcome.ok_bind, hstring, hscan']

theorem readArgs_line {last : Bool} {ls : List Line} {st : LoadState} (l : Line)
    (hst : st.file = printArgs l.numbers ++ textAfter last ls) :
    ∃ st', readArgs st l.opcode = .ok (l.args, st') ∧ Ready last ls st'.file := by
  match l, hst with
  | .calc, hst =>
    refine ⟨st, rfl, ?_⟩
    rw [hst]
    exact ready_textAfter last ls
  | .alloc size rgid, hst => exact @fromFile_uints last ls st [size, rgid] hst (by simp)
  | .free rgid, hst => exact @fromFile_uints last ls st [rgid] hst (by simp)
  | .read source offset destination, hst =>
    exact @fromFile_uints last ls st [source, offset, destination] hst (by simp)
  | .write data destination offset, hst =>
    exact @fromFile_uints last ls st [data, destination, offset] hst (by simp)
  | .syscall a, hst => exact readArgs_syscall a hst

theorem readOpcode_line {last : Bool} {l : Line} {ls : List Line} {st : LoadState}
    (h : Ready last (l :: ls) st.file) :
    readOpcode st = .ok { st with
      file := printArgs l.numbers ++ textAfter last ls, opcode := some (optName l.opcode) } := by
  obtain ⟨blanks, hblanks, hfile⟩ := h
  have hhead : ∀ c ∈ (printArgs l.numbers ++ textAfter last ls).head?, isSpace c = true := by
    intro c hc
    cases hnum : l.numbers with
    | nil => exact head_textAfter (by simpa [hnum, printArgs] using hc)
    | cons x xs =>
      obtain rfl : ' ' = c := by simpa [hnum, printArgs] using hc
      simp [isSpace]
  have hword := scanWord_append hblanks (fun c hc => optName_isSpace hc) (optName_ne_nil l.opcode)
    hhead
  have hlen : (optName l.opcode).length < 10 := by cases l.opcode <;> decide
  unfold readOpcode
  rw [hfile, Line.text, List.append_assoc, hword]
  exact if_pos hlen

/-- A round takes one line. -/
theorem loadRound_line {last : Bool} {l : Line} {ls : List Line} {st : LoadState} (ins : Inst)
    (h : Ready last (l :: ls) st.file) :
    ∃ st', loadRound ins st = .ok (l.loaded ins, st') ∧ Ready last ls st'.file := by
  obtain ⟨st', hargs, hready⟩ := @readArgs_line last ls { st with
    file := printArgs l.numbers ++ textAfter last ls, opcode := some (optName l.opcode) } l rfl
  refine ⟨st', ?_, hready⟩
  unfold loadRound
  rw [readOpcode_line h]
  simp only [Outcome.ok_bind, Outcome.ofOption_some, getOpcode_optName, hargs]
  rfl

/-- The whole loop: every instruction is the line of its round. -/
theorem loadLoop_lines {last : Bool} (text : ℕ → Inst) {lines : List Line} (i : ℕ)
    {st : LoadState} (h : Ready last lines st.file) :
    loadLoop text i lines.length st =
      .ok ((lines.zipIdx i).map fun r => r.1.loaded (text r.2)) := by
  induction lines generalizing i st with
  | nil => rfl
  | cons l ls ih =>
    obtain ⟨st', hround, hready⟩ := loadRound_line (text i) h
    rw [List.length_cons, loadLoop, hround, Outcome.ok_bind]
    simp only [ih (i + 1) hready, Outcome.ok_bind, List.zipIdx_cons, List.map_cons]

/-! ### A whole file -/

/-- The header, and nothing of the lines. -/
theorem scanf_header (last : Bool) (priority : BitVec 32) (lines : List Line) :
    scanf [.uint, .space, .uint] (programText last priority lines) =
      if lines.length < 4294967296 then
        some ([priority, BitVec.ofNat 32 lines.length], textAfter last lines)
      else none := by
  have hshape : programText last priority lines =
      [] ++ (printInt priority.toNat ++ ([' '] ++
        (printInt lines.length ++ textAfter last lines))) := by
    simp [programText]
  have hblank : NoDigit ([' '] ++ (printInt lines.length ++ textAfter last lines)) := by
    simp [NoDigit]
  rw [hshape, scanf_number (fits_uint_natCast.mpr priority.isLt) (by simp) hblank, scanf,
    scanf_skipSpace]
  by_cases hlen : lines.length < 4294967296
  · rw [if_pos hlen, scanf_number (fits_uint_natCast.mpr hlen) (by simp [isSpace])
      (noDigit_textAfter last lines)]
    simp [scanf]
  · have hfit : ¬Directive.uint.Fits (lines.length : ℤ) := fun h => hlen (fits_uint_natCast.mp h)
    rw [if_neg hlen, scanf, scanInteger_blanks (by simp [isSpace]),
      scanInteger_printInt (noDigit_textAfter last lines)]
    · simp [hfit]
    · intro heq
      cases heq

/-- The result of `load` on the file of a program. -/
theorem load_programText {last : Bool} {priority : BitVec 32} {lines : List Line}
    (availPid : BitVec 32) {fopen : List Byte → Option (List Char)} {path : List Byte}
    (mem : Malloced) (hfile : fopen path = some (programText last priority lines)) :
    load availPid fopen path mem =
      if lines.length < 4294967296 then
        .ok ({ pid := availPid
               path := snprintf (2 * sizeofPath + 1) path
               priority := priority
               code := lines.zipIdx.map fun r => r.1.loaded (mem.text r.2)
               pc := 0
               bp := 1024 }, availPid + 1)
      else .undefined := by
  unfold load
  rw [hfile]
  simp only [scanf_header]
  split
  · next hlen =>
    have hcount : (BitVec.ofNat 32 lines.length).toNat = lines.length := by
      rw [BitVec.toNat_ofNat]
      omega
    simp only [Outcome.ofOption_some, Outcome.ok_bind, List.getD_cons_succ, List.getD_cons_zero,
      hcount]
    have hready : Ready last lines (LoadState.mk (textAfter last lines) none none).file :=
      ready_textAfter last lines
    rw [loadLoop_lines mem.text 0 hready]
    rfl
  · rfl

/-- The instructions are those of the file exactly if the memory of every omitted
argument was 0. -/
theorem taken_lines_iff (lines : List Line) (text : ℕ → Inst) :
    ((lines.zipIdx.map fun r => r.1.loaded (text r.2)).map Inst.taken =
        lines.map fun l => l.meaning.taken) ↔
      ∀ r ∈ lines.zipIdx, ∀ x ∈ r.1.omitted (text r.2), x = 0 := by
  have hlines : (lines.map fun l => l.meaning.taken) =
      lines.zipIdx.map fun r => r.1.meaning.taken := by
    conv_lhs => rw [← List.zipIdx_map_fst 0 lines, List.map_map]
    rfl
  rw [hlines, List.map_map, List.map_inj_left]
  exact forall₂_congr fun r _ => taken_loaded_iff r.1 (text r.2)

theorem loadsExactly_iff (last : Bool) (priority : BitVec 32) (lines : List Line)
    (mem : Malloced) :
    LoadsExactly last priority lines mem ↔ lines.length < 4294967296 ∧
      ∀ r ∈ lines.zipIdx, ∀ x ∈ r.1.omitted (mem.text r.2), x = 0 := by
  rw [← taken_lines_iff]
  constructor
  · intro h
    obtain ⟨proc, hload, -, -, hcode⟩ := h 1 (fun _ => some (programText last priority lines)) [] rfl
    rw [load_programText 1 mem rfl] at hload
    split at hload
    · next hlen =>
      obtain rfl := (Prod.mk.inj (Outcome.ok.inj hload)).1
      exact ⟨hlen, hcode⟩
    · cases hload
  · intro h availPid fopen path hfile
    obtain ⟨hlen, hcode⟩ := h
    exact ⟨_, (load_programText availPid mem hfile).trans (if_pos hlen), rfl, rfl, hcode⟩

/-- A complete line omits nothing; another takes what `malloc` returned. -/
theorem complete_iff (l : Line) : l.Complete ↔ ∀ ins : Inst, ∀ x ∈ l.omitted ins, x = 0 := by
  cases l with
  | syscall a =>
    unfold Line.Complete Line.omitted
    dsimp only
    constructor
    · intro h ins x hx
      simp [h] at hx
    · intro h
      by_contra hne
      have hlt : a.args.length < 4 := lt_of_le_of_ne a.le hne
      have hone : (1 : BitVec 32) = 0 := by
        refine h ⟨.calc, 1, 1, 1, 1⟩ 1 ?_
        have hfields : ([1, 1, 1, 1] : List (BitVec 32)) = List.replicate 4 1 := rfl
        rw [hfields, List.drop_replicate, List.mem_replicate]
        exact ⟨by omega, rfl⟩
      cases hone
  | _ => simp [Line.Complete, Line.omitted]

/-- Loading inverts printing for the memory it gets exactly if that held 0 wherever an
argument is omitted, and whatever the memory held exactly if none is. -/
theorem load_exact_iff (last : Bool) (priority : BitVec 32) (lines : List Line) :
    (∀ mem, LoadsExactly last priority lines mem ↔ lines.length < 4294967296 ∧
      ∀ r ∈ lines.zipIdx, ∀ x ∈ r.1.omitted (mem.text r.2), x = 0) ∧
    ((∀ mem, LoadsExactly last priority lines mem) ↔
      lines.length < 4294967296 ∧ ∀ l ∈ lines, l.Complete) := by
  refine ⟨loadsExactly_iff last priority lines, ?_⟩
  simp only [loadsExactly_iff]
  constructor
  · intro h
    refine ⟨(h ⟨0, 0, fun _ => ⟨.calc, 0, 0, 0, 0⟩⟩).1, fun l hl => ?_⟩
    obtain ⟨i, hi, rfl⟩ := List.getElem_of_mem hl
    rw [complete_iff]
    intro ins
    refine (h ⟨0, 0, fun _ => ins⟩).2 (lines[i], i) ?_
    exact List.mk_mem_zipIdx_iff_getElem?.mpr (List.getElem?_eq_getElem hi)
  · intro h mem
    refine ⟨h.1, fun r hr => ?_⟩
    exact (complete_iff r.1).mp (h.2 r.1 (List.fst_mem_of_mem_zipIdx hr)) _

/-- The last line of `input/proc/sc2`. -/
def killallLine : Line := .syscall ⟨[101, 1], by decide, by decide⟩

example : programText true 20 [killallLine] = "20 1\nsyscall 101 1\n".toList := by decide

/-- Memory that is not 0 becomes an argument of `syscall 101 1`. -/
theorem load_not_exact :
    ¬LoadsExactly true 20 [killallLine] ⟨0, 0, fun _ => ⟨.calc, 7, 7, 7, 7⟩⟩ := by
  rw [loadsExactly_iff]
  intro h
  have hzero : (7 : BitVec 32) = 0 := h.2 (killallLine, 0) (by simp) 7 (by decide)
  exact absurd hzero (by decide)

end OsSim.Os
