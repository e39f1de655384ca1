import OsSim.Base.Scanf

/-!
# Texts made of tokens

`fscanf` takes a text apart at its blanks: how many there are, which ones, and
where the lines end does not matter to a format of numbers, words and white-space
directives. `Spaced` says that a text consists of given tokens, and each directive
takes the first of them.
-/

namespace OsSim.Base

@[mk_iff]
structure IsToken (token : List Char) : Prop where
  ne_nil : token ≠ []
  no_blank : ∀ c ∈ token, isSpace c = false

/-- The tokens with blanks around them, at least one between any two. -/
inductive Spaced : List (List Char) → List Char → Prop where
  | nil {blanks : List Char} : (∀ c ∈ blanks, isSpace c = true) → Spaced [] blanks
  | cons {tokens : List (List Char)} {blanks token rest : List Char} :
      (∀ c ∈ blanks, isSpace c = true) → IsToken token → (∀ c ∈ rest.head?, isSpace c = true) →
      Spaced tokens rest → Spaced (token :: tokens) (blanks ++ (token ++ rest))

theorem Spaced.blank {tokens : List (List Char)} {s : List Char} {c : Char} (hc : isSpace c = true)
    (h : Spaced tokens s) : Spaced tokens (c :: s) := by
  cases h with
  | nil hblanks =>
    apply Spaced.nil
    intro d hd
    cases hd with
    | head => exact hc
    | tail _ hd => exact hblanks d hd
  | @cons tokens blanks token rest hblanks htoken hrest hspaced =>
    have hmore : ∀ d ∈ c :: blanks, isSpace d = true := by
      intro d hd
      cases hd with
      | head => exact hc
      | tail _ hd => exact hblanks d hd
    exact Spaced.cons hmore htoken hrest hspaced

/-- The words of a text that follow on the beginning of one. -/
def wordsFrom (token : List Char) : List Char → List (List Char)
  | [] => if token = [] then [] else [token]
  | c :: s =>
    if isSpace c then
      if token = [] then wordsFrom [] s else token :: wordsFrom [] s
    else wordsFrom (token ++ [c]) s

/-- The words of a text. -/
def words (s : List Char) : List (List Char) := wordsFrom [] s

theorem spaced_wordsFrom {token : List Char} (htoken : ∀ c ∈ token, isSpace c = false)
    (s : List Char) : Spaced (wordsFrom token s) (token ++ s) := by
  induction s generalizing token with
  | nil =>
    rw [wordsFrom]
    split_ifs with hnil
    · rw [hnil]
      exact .nil (by simp)
    · have hcons := @Spaced.cons [] [] token [] (by simp) ⟨hnil, htoken⟩ (by simp) (.nil (by simp))
      exact hcons
  | cons c s ih =>
    rw [wordsFrom]
    split_ifs with hc hnil
    · rw [hnil]
      exact (@ih [] (by simp)).blank hc
    · have hrest : Spaced (wordsFrom [] s) (c :: s) := (@ih [] (by simp)).blank hc
      have hhead : ∀ d ∈ (c :: s).head?, isSpace d = true := by
        intro d hd
        obtain rfl : c = d := by simpa using hd
        exact hc
      have hcons := @Spaced.cons _ [] token _ (by simp) ⟨hnil, htoken⟩ hhead hrest
      exact hcons
    · have hmore : ∀ d ∈ token ++ [c], isSpace d = false := by
        intro d hd
        cases List.mem_append.mp hd with
        | inl hd => exact htoken d hd
        | inr hd =>
          obtain rfl := List.mem_singleton.mp hd
          exact Bool.not_eq_true _ ▸ hc
      have hspaced := ih hmore
      rw [List.append_assoc] at hspaced
      exact hspaced

/-- Every text consists of its words. -/
theorem spaced_words (s : List Char) : Spaced (words s) s := by
  have h := @spaced_wordsFrom [] (by simp) s
  exact h

section Spaced
variable {tokens : List (List Char)} {s : List Char}

theorem Spaced.skipSpace (h : Spaced tokens s) : Spaced tokens (skipSpace s) := by
  cases h with
  | nil hblanks =>
    have hskip := @skipSpace_append s [] hblanks
    rw [List.append_nil] at hskip
    rw [hskip]
    exact .nil (by simp [OsSim.Base.skipSpace])
  | @cons tokens blanks token rest hblanks htoken hrest hspaced =>
    have hstays : OsSim.Base.skipSpace (token ++ rest) = token ++ rest := by
      cases htok : token with
      | nil => exact absurd htok htoken.ne_nil
      | cons c token => exact skipSpace_of_head (htoken.no_blank c (by simp [htok]))
    have hcons := @Spaced.cons tokens [] token rest (by simp) htoken hrest hspaced
    rw [skipSpace_append hblanks, hstays]
    exact hcons

/-- A conversion of a number takes the first token. -/
theorem Spaced.scanInteger {x : ℤ} (h : Spaced (printInt x :: tokens) s) :
    ∃ rest, scanInteger s = .got x rest ∧ Spaced tokens rest := by
  cases h with
  | @cons _ blanks _ rest hblanks _ hrest hspaced =>
    refine ⟨rest, ?_, hspaced⟩
    rw [scanInteger_blanks hblanks, scanInteger_printInt (noDigit_of_head hrest)]

theorem Spaced.scanWord {word : List Char} (h : Spaced (word :: tokens) s) :
    ∃ rest, scanWord s = .got word rest ∧ Spaced tokens rest := by
  cases h with
  | @cons _ blanks _ rest hblanks htoken hrest hspaced =>
    exact ⟨rest, scanWord_append hblanks htoken.no_blank htoken.ne_nil hrest, hspaced⟩

end Spaced

/-- The conversions of the format are for these numbers. -/
def Accepts : List Directive → List ℤ → Prop
  | [], xs => xs = []
  | .space :: format, xs => Accepts format xs
  | _ :: _, [] => False
  | d :: format, x :: xs => d.Fits x ∧ Accepts format xs

/-- A format takes its numbers from the tokens, wherever it has white-space directives. -/
theorem Spaced.scanf {format : List Directive} {xs : List ℤ} {tokens : List (List Char)}
    {s : List Char} (hformat : Accepts format xs) (h : Spaced (xs.map printInt ++ tokens) s) :
    ∃ rest, scanf format s = some (xs.map (BitVec.ofInt 32), rest) ∧ Spaced tokens rest := by
  induction format generalizing xs s with
  | nil =>
    obtain rfl : xs = [] := hformat
    exact ⟨s, rfl, h⟩
  | cons d format ih =>
    cases d with
    | space => exact ih hformat h.skipSpace
    | uint | int =>
      cases xs with
      | nil => exact absurd hformat id
      | cons x xs =>
        obtain ⟨hfits, hrest⟩ := hformat
        obtain ⟨rest, hscan, hspaced⟩ := Spaced.scanInteger h
        obtain ⟨last, hlast, hend⟩ := ih hrest hspaced
        refine ⟨last, ?_, hend⟩
        simp only [OsSim.Base.scanf, hscan, if_pos hfits, hlast, Option.map_some, List.map_cons]

end OsSim.Base
