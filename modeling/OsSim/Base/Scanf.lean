import Mathlib

/-!
# Formatted input (stdio.h)

The parts of `fscanf`, `sscanf` and `fgets` that read numbers, words and lines from
a stream of characters, as the C standard documents them. A conversion that fails
ends the call: it assigns nothing, and what was read of its item stays read. A
number that does not fit its object is undefined behaviour (`none`). Numbers written
in decimal with blanks before them are read back.
-/

namespace OsSim.Base

def newline : Char := Char.ofNat 10

/-- `isspace` in the C locale. -/
def isSpace (c : Char) : Bool := c.toNat == 32 || (9 ≤ c.toNat && c.toNat ≤ 13)

/-- A white-space directive. -/
def skipSpace (s : List Char) : List Char := s.dropWhile isSpace

/-- An item read and what is left, or what is left after a failure. -/
inductive Item (α : Type) where
  | got (x : α) (rest : List Char)
  | stop (rest : List Char)

/-- The item of `%s`. -/
def scanWord (s : List Char) : Item (List Char) :=
  match skipSpace s with
  | [] => .stop []
  | s => .got (s.takeWhile fun c => !isSpace c) (s.dropWhile fun c => !isSpace c)

def scanSign : List Char → Bool × List Char
  | '-' :: s => (true, s)
  | '+' :: s => (false, s)
  | s => (false, s)

/-- The item of `%d` and `%u`: digits in base 10 after an optional sign. -/
def scanInteger (s : List Char) : Item ℤ :=
  let signed := scanSign (skipSpace s)
  let digits := signed.2.takeWhile Char.isDigit
  let rest := signed.2.dropWhile Char.isDigit
  if digits = [] then .stop rest
  else .got (if signed.1 then -(Nat.ofDigitChars 10 digits 0 : ℤ) else Nat.ofDigitChars 10 digits 0)
    rest

/-- `%u`, `%d` and a white-space character of a format. -/
inductive Directive where
  | uint
  | int
  | space

/-- The number can be stored by the directive; `strtoul` negates modulo. -/
def Directive.Fits : Directive → ℤ → Prop
  | .uint, x => -4294967296 < x ∧ x < 4294967296
  | .int, x => -2147483648 ≤ x ∧ x < 2147483648
  | .space, _ => False

instance instDecidableFits (d : Directive) (x : ℤ) : Decidable (d.Fits x) := by
  cases d <;> unfold Directive.Fits <;> infer_instance

/-- The values assigned, in order, and the rest of the stream. -/
def scanf : List Directive → List Char → Option (List (BitVec 32) × List Char)
  | [], s => some ([], s)
  | .space :: format, s => scanf format (skipSpace s)
  | d :: format, s =>
    match scanInteger s with
    | .stop rest => some ([], rest)
    | .got x rest =>
      if d.Fits x then
        (scanf format rest).map fun r => (BitVec.ofInt 32 x :: r.1, r.2)
      else none

/-- A line with its newline, cut after `n` characters. -/
def takeLine : ℕ → List Char → List Char × List Char
  | 0, s => ([], s)
  | _ + 1, [] => ([], [])
  | n + 1, c :: s =>
    if c = newline then ([c], s) else (c :: (takeLine n s).1, (takeLine n s).2)

/-- `fgets` into a buffer of that size; `none` is `NULL`, at the end of the stream. -/
def fgets (size : ℕ) (s : List Char) : Option (List Char × List Char) :=
  if s = [] then none else some (takeLine (size - 1) s)

/-- The string in a buffer: up to the terminator. -/
def cString (s : List Char) : List Char := s.takeWhile fun c => c != Char.ofNat 0

/-! ### Numbers written in decimal -/

/-- `%d` or `%u` of `printf`. -/
def printInt (x : ℤ) : List Char :=
  if x < 0 then '-' :: Nat.toDigits 10 x.natAbs else Nat.toDigits 10 x.natAbs

/-- Each number with a blank before it. -/
def printArgs (xs : List ℤ) : List Char := xs.flatMap fun x => ' ' :: printInt x

/-- The next character, if any, is no digit. -/
def NoDigit (s : List Char) : Prop := ∀ c ∈ s.head?, c.isDigit = false

theorem toNat_newline : newline.toNat = 10 := rfl

theorem isSpace_newline : isSpace newline = true := by simp [isSpace, toNat_newline]

theorem isDigit_range {c : Char} (h : c.isDigit = true) : 48 ≤ c.toNat ∧ c.toNat ≤ 57 := by
  simpa [Char.isDigit, UInt32.le_iff_toNat_le] using h

theorem isSpace_of_isDigit {c : Char} (h : c.isDigit = true) : isSpace c = false := by
  obtain ⟨hlow, hhigh⟩ := isDigit_range h
  simp [isSpace]
  omega

theorem skipSpace_append {blanks s : List Char} (h : ∀ c ∈ blanks, isSpace c = true) :
    skipSpace (blanks ++ s) = skipSpace s := by
  unfold skipSpace
  rw [List.dropWhile_append_of_pos h]

theorem skipSpace_of_head {c : Char} {s : List Char} (h : isSpace c = false) :
    skipSpace (c :: s) = c :: s := by
  unfold skipSpace
  rw [List.dropWhile_cons, h]
  rfl

theorem skipSpace_skipSpace (s : List Char) : skipSpace (skipSpace s) = skipSpace s := by
  unfold skipSpace
  exact List.dropWhile_idempotent _ s

theorem noDigit_of_head {s : List Char} (h : ∀ c ∈ s.head?, isSpace c = true) : NoDigit s := by
  intro c hc
  by_contra hdigit
  have hspace := h c hc
  rw [isSpace_of_isDigit (by simpa using hdigit)] at hspace
  cases hspace

/-- The longest run of characters is cut off exactly when the next one is no part of it. -/
theorem span_append {p : Char → Bool} {run rest : List Char} (h : ∀ c ∈ run, p c = true)
    (hr : ∀ c ∈ rest.head?, p c = false) :
    (run ++ rest).takeWhile p = run ∧ (run ++ rest).dropWhile p = rest := by
  rw [List.takeWhile_append_of_pos h, List.dropWhile_append_of_pos h]
  cases rest with
  | nil => simp
  | cons c rest => simp [hr c (by simp)]

theorem scanSign_digits {run rest : List Char} (h : ∀ c ∈ run, c.isDigit = true) (hne : run ≠ []) :
    scanSign (run ++ rest) = (false, run ++ rest) := by
  cases run with
  | nil => exact absurd rfl hne
  | cons c run =>
    have hc := isDigit_range (h c (by simp))
    unfold scanSign
    split
    · next heq =>
      obtain rfl : c = '-' := (List.cons.inj heq).1
      simp at hc
    · next heq =>
      obtain rfl : c = '+' := (List.cons.inj heq).1
      simp at hc
    · rfl

theorem skipSpace_printInt (x : ℤ) (rest : List Char) :
    skipSpace (printInt x ++ rest) = printInt x ++ rest := by
  unfold printInt
  split
  · exact skipSpace_of_head (by decide)
  · cases hd : Nat.toDigits 10 x.natAbs with
    | nil => exact absurd hd Nat.toDigits_ne_nil
    | cons c ds =>
      have hc : c ∈ Nat.toDigits 10 x.natAbs := by simp [hd]
      exact skipSpace_of_head
        (isSpace_of_isDigit (Nat.isDigit_of_mem_toDigits (by decide) (by decide) hc))

theorem scanInteger_printInt {x : ℤ} {rest : List Char} (hr : NoDigit rest) :
    scanInteger (printInt x ++ rest) = .got x rest := by
  have hdigits : ∀ c ∈ Nat.toDigits 10 x.natAbs, c.isDigit = true := fun c hc =>
    Nat.isDigit_of_mem_toDigits (by decide) (by decide) hc
  have hspan := span_append hdigits hr
  have hvalue : Nat.ofDigitChars 10 (Nat.toDigits 10 x.natAbs) 0 = x.natAbs :=
    Nat.ofDigitChars_ten_toDigits
  unfold scanInteger
  rw [skipSpace_printInt]
  unfold printInt
  split
  · have hsign : scanSign ('-' :: Nat.toDigits 10 x.natAbs ++ rest) =
        (true, Nat.toDigits 10 x.natAbs ++ rest) := rfl
    simp only [hsign, hspan, Nat.toDigits_ne_nil, if_false, if_true, hvalue]
    congr 1
    omega
  · simp only [scanSign_digits hdigits Nat.toDigits_ne_nil, hspan, Nat.toDigits_ne_nil, if_false,
      Bool.false_eq_true, hvalue]
    congr 1
    omega

theorem scanInteger_blanks {blanks s : List Char} (h : ∀ c ∈ blanks, isSpace c = true) :
    scanInteger (blanks ++ s) = scanInteger s := by
  unfold scanInteger
  rw [skipSpace_append h]

/-- Blanks and a word, up to the next blank. -/
theorem scanWord_append {blanks word rest : List Char} (h : ∀ c ∈ blanks, isSpace c = true)
    (hw : ∀ c ∈ word, isSpace c = false) (hne : word ≠ [])
    (hr : ∀ c ∈ rest.head?, isSpace c = true) :
    scanWord (blanks ++ (word ++ rest)) = .got word rest := by
  have hspan := @span_append (fun c => !isSpace c) word rest
    (fun c hc => by simp [hw c hc]) (fun c hc => by simp [hr c hc])
  unfold scanWord
  cases word with
  | nil => exact absurd rfl hne
  | cons c word =>
    rw [skipSpace_append h, List.cons_append, skipSpace_of_head (hw c (by simp))]
    exact congrArg₂ Item.got hspan.1 hspan.2

/-! ### A format against the text it describes -/

theorem fits_uint_natCast {n : ℕ} : Directive.uint.Fits (n : ℤ) ↔ n < 4294967296 := by
  unfold Directive.Fits
  dsimp only
  omega

theorem fits_int_iff {x : ℤ} :
    Directive.int.Fits x ↔ -2147483648 ≤ x ∧ x < 2147483648 := Iff.rfl

/-- A number where the format asks for one. -/
theorem scanf_number {d : Directive} {format : List Directive} {blanks rest : List Char} {x : ℤ}
    (hd : d.Fits x) (h : ∀ c ∈ blanks, isSpace c = true) (hr : NoDigit rest) :
    scanf (d :: format) (blanks ++ (printInt x ++ rest)) =
      (scanf format rest).map fun r => (BitVec.ofInt 32 x :: r.1, r.2) := by
  cases d with
  | space => exact absurd hd id
  | uint =>
    rw [scanf, scanInteger_blanks h, scanInteger_printInt hr]
    · exact if_pos hd
    · nofun
  | int =>
    rw [scanf, scanInteger_blanks h, scanInteger_printInt hr]
    · exact if_pos hd
    · nofun

/-- Every directive skips the blanks before what it reads. -/
theorem scanf_skipSpace (d : Directive) (format : List Directive) (s : List Char) :
    scanf (d :: format) (skipSpace s) = scanf (d :: format) s := by
  cases d <;> simp only [scanf, scanInteger, skipSpace_skipSpace]

/-- `%u`, each with a white-space character after it. -/
def uints (n : ℕ) : List Directive := (List.replicate n [.uint, .space]).flatten

theorem noDigit_printArgs {s : List Char} (xs : List ℤ) (h : NoDigit s) :
    NoDigit (printArgs xs ++ s) := by
  cases xs with
  | nil => exact h
  | cons x xs => simp [NoDigit, printArgs]

/-- Such a format reads on to the next character that is no blank. -/
theorem scanf_uints {s : List Char} (h : NoDigit s) {xs : List ℤ}
    (hx : ∀ x ∈ xs, Directive.uint.Fits x) :
    scanf (uints xs.length) (skipSpace (printArgs xs ++ s)) =
      some (xs.map (BitVec.ofInt 32), skipSpace s) := by
  induction xs with
  | nil => rfl
  | cons x xs ih =>
    have hshape : printArgs (x :: xs) ++ s = [' '] ++ (printInt x ++ (printArgs xs ++ s)) := by
      simp [printArgs]
    have hformat : uints (x :: xs).length = .uint :: .space :: uints xs.length := by
      simp [uints, List.replicate_succ]
    rw [hshape, hformat, scanf_skipSpace,
      scanf_number (hx x (by simp)) (by simp [isSpace]) (noDigit_printArgs xs h), scanf,
      ih fun y hy => hx y (by simp [hy])]
    rfl

/-- Fewer numbers than the format asks for: the others are not assigned. -/
theorem scanf_printArgs {blanks : List Char} (h : ∀ c ∈ blanks, isSpace c = true) {n : ℕ}
    {xs : List ℤ} (hx : ∀ x ∈ xs, Directive.int.Fits x) (hn : xs.length ≤ n) :
    ∃ rest, scanf (List.replicate n .int) (printArgs xs ++ blanks) =
      some (xs.map (BitVec.ofInt 32), rest) := by
  induction xs generalizing n with
  | nil =>
    cases n with
    | zero => exact ⟨blanks, rfl⟩
    | succ n =>
      have hskip : skipSpace blanks = [] := by
        have := @skipSpace_append blanks [] h
        rw [List.append_nil] at this
        exact this
      refine ⟨[], ?_⟩
      rw [List.replicate_succ, scanf]
      · simp [printArgs, scanInteger, hskip, scanSign]
      · nofun
  | cons x xs ih =>
    cases n with
    | zero => simp at hn
    | succ n =>
      obtain ⟨rest, hrest⟩ := @ih n (fun y hy => hx y (by simp [hy])) (by simpa using hn)
      have hblanks : NoDigit blanks :=
        noDigit_of_head fun c hc => h c (List.mem_of_mem_head? hc)
      have hr := noDigit_printArgs xs hblanks
      have hshape : printArgs (x :: xs) ++ blanks =
          [' '] ++ (printInt x ++ (printArgs xs ++ blanks)) := by simp [printArgs]
      refine ⟨rest, ?_⟩
      rw [hshape, List.replicate_succ,
        scanf_number (hx x (by simp)) (by simp [isSpace]) hr, hrest]
      rfl

/-! ### Lines -/

theorem takeLine_cons {n : ℕ} {c : Char} {line : List Char} (h : newline ∉ c :: line)
    (rest : List Char) : takeLine (n + 1) (c :: rest) =
      (c :: (takeLine n rest).1, (takeLine n rest).2) := by
  rw [List.mem_cons, not_or] at h
  have hc : c ≠ newline := fun heq => h.1 heq.symm
  simp [takeLine, hc]

theorem takeLine_newline {n : ℕ} {line rest : List Char} (h : newline ∉ line)
    (hn : line.length < n) : takeLine n (line ++ newline :: rest) = (line ++ [newline], rest) := by
  induction line generalizing n with
  | nil =>
    cases n with
    | zero => simp at hn
    | succ n => simp [takeLine]
  | cons c line ih =>
    cases n with
    | zero => simp at hn
    | succ n =>
      have htail := ih (List.not_mem_of_not_mem_cons h) (Nat.lt_of_succ_lt_succ hn)
      rw [List.cons_append, takeLine_cons h, htail]
      rfl

theorem takeLine_end {n : ℕ} {line : List Char} (h : newline ∉ line) (hn : line.length ≤ n) :
    takeLine n line = (line, []) := by
  induction line generalizing n with
  | nil => cases n <;> rfl
  | cons c line ih =>
    cases n with
    | zero => simp at hn
    | succ n =>
      have htail := ih (List.not_mem_of_not_mem_cons h) (Nat.le_of_succ_le_succ hn)
      rw [takeLine_cons h, htail]

/-- What `%d` prints: a minus sign and digits. -/
theorem printInt_chars {x : ℤ} {c : Char} (h : c ∈ printInt x) :
    c = '-' ∨ c.isDigit = true := by
  unfold printInt at h
  split at h
  · cases h with
    | head => exact .inl rfl
    | tail _ h => exact .inr (Nat.isDigit_of_mem_toDigits (by decide) (by decide) h)
  · exact .inr (Nat.isDigit_of_mem_toDigits (by decide) (by decide) h)

theorem printArgs_chars {xs : List ℤ} {c : Char} (h : c ∈ printArgs xs) : 32 ≤ c.toNat := by
  obtain ⟨x, -, hc⟩ := List.mem_flatMap.mp h
  cases hc with
  | head => decide
  | tail _ hc =>
    cases printInt_chars hc with
    | inl heq => subst heq; decide
    | inr hdigit =>
      have := isDigit_range hdigit
      omega

theorem printArgs_length {xs : List ℤ} (hx : ∀ x ∈ xs, Directive.int.Fits x) :
    (printArgs xs).length ≤ 12 * xs.length := by
  induction xs with
  | nil => simp [printArgs]
  | cons x xs ih =>
    have hfits := fits_int_iff.mp (hx x (by simp))
    have hdigits : (Nat.toDigits 10 x.natAbs).length ≤ 10 := by
      rw [Nat.length_toDigits_le_iff (by decide) (by decide)]
      omega
    have hlen : (printInt x).length ≤ 11 := by
      unfold printInt
      split
      · rw [List.length_cons]
        omega
      · omega
    have hrest := ih fun y hy => hx y (by simp [hy])
    simp only [printArgs, List.flatMap_cons, List.length_append, List.length_cons] at hrest ⊢
    omega

theorem cString_of_ne {s : List Char} (h : ∀ c ∈ s, c.toNat ≠ 0) : cString s = s := by
  unfold cString
  refine List.takeWhile_eq_self_iff.mpr fun c hc => ?_
  have := h c hc
  simp only [bne_iff_ne, ne_eq]
  intro heq
  exact this (by simp [heq])

end OsSim.Base
