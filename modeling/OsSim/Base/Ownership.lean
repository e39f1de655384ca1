import Mathlib

/-!
# Ownership of slots

Owners hold at most one slot each; a slot has at most one owner, and a free
slot has none. The rules are the moves a resource manager makes: give a free
slot to an owner, lose a free slot, and push one owner to a free slot so that
another can take its old one. `Covers` is the other half of conservation: no
slot is lost, so the rules ask for owners that have nothing to lose.
-/

namespace OsSim.Base

variable {P S : Type}

structure Owns (own : P → Option S) (free : S → Prop) : Prop where
  alone : ∀ {x y : P} {s : S}, own x = some s → own y = some s → x = y
  busy : ∀ {x : P} {s : S}, own x = some s → ¬free s

theorem owns_none (free : S → Prop) : Owns (fun _ : P => none) free where
  alone h := by simp at h
  busy h := by simp at h

theorem Owns.shrink {own : P → Option S} {free free' : S → Prop} (h : Owns own free)
    (hfree : ∀ s, free' s → free s) : Owns own free' where
  alone := h.alone
  busy hx hs := h.busy hx (hfree _ hs)

/-- Give the free slot `s` to `x`. What `x` had is lost to everybody. -/
theorem Owns.assign [DecidableEq P] {own : P → Option S} {free free' : S → Prop}
    (h : Owns own free) (x : P) {s : S} (hs : free s) (hfree : ∀ t, free' t → free t ∧ t ≠ s) :
    Owns (Function.update own x (some s)) free' where
  alone {y z t} hy hz := by
    rw [Function.update_apply] at hy hz
    split_ifs at hy hz with hyx hzx hzx
    · rw [hyx, hzx]
    · exact absurd hs (h.busy ((Option.some.inj hy) ▸ hz))
    · exact absurd hs (h.busy ((Option.some.inj hz) ▸ hy))
    · exact h.alone hy hz
  busy {y t} hy ht := by
    rw [Function.update_apply] at hy
    obtain ⟨hold, hne⟩ := hfree t ht
    split_ifs at hy with hyx
    · exact hne (Option.some.inj hy).symm
    · exact h.busy hy hold

/-- Move `v` to the free slot `o` and give its old slot to `x`, which had none. -/
theorem Owns.handOver [DecidableEq P] {own : P → Option S} {free free' : S → Prop}
    (h : Owns own free) {v x : P} {f o : S} (hv : own v = some f) (hx : own x = none)
    (ho : free o) (hfree : ∀ t, free' t → free t ∧ t ≠ o) :
    Owns (Function.update (Function.update own v (some o)) x (some f)) free' := by
  have hxv : x ≠ v := by
    rintro rfl
    simp [hv] at hx
  have hmid := h.assign v ho hfree
  have hold : ∀ y, y ≠ v → Function.update own v (some o) y = some f → False := fun y hy hyf => by
    rw [Function.update_of_ne hy] at hyf
    exact hy (h.alone hyf hv)
  have hof : o ≠ f := fun hof => h.busy hv (hof ▸ ho)
  refine ⟨fun {y z t} hy hz => ?_, fun {y t} hy ht => ?_⟩
  · rw [Function.update_apply] at hy hz
    split_ifs at hy hz with hyx hzx hzx
    · rw [hyx, hzx]
    · obtain rfl := Option.some.inj hy
      by_cases hzv : z = v
      · rw [hzv, Function.update_self] at hz
        exact absurd (Option.some.inj hz) hof
      · exact (hold z hzv hz).elim
    · obtain rfl := Option.some.inj hz
      by_cases hyv : y = v
      · rw [hyv, Function.update_self] at hy
        exact absurd (Option.some.inj hy) hof
      · exact (hold y hyv hy).elim
    · exact hmid.alone hy hz
  · rw [Function.update_apply] at hy
    split_ifs at hy with hyx
    · obtain rfl := Option.some.inj hy
      exact h.busy hv (hfree _ ht).1
    · exact hmid.busy hy ht

/-! ### No slot is lost -/

/-- Every slot of the kind is free or has an owner. -/
def Covers (own : P → Option S) (free all : S → Prop) : Prop :=
  ∀ s, all s → free s ∨ ∃ x, own x = some s

theorem Covers.assign [DecidableEq P] {own : P → Option S} {free free' all : S → Prop}
    (h : Covers own free all) {x : P} (hx : own x = none) {s : S}
    (hfree : ∀ t, free t → free' t ∨ t = s) :
    Covers (Function.update own x (some s)) free' all := by
  intro t ht
  rcases h t ht with hold | ⟨y, hy⟩
  · rcases hfree t hold with hstill | rfl
    · exact Or.inl hstill
    · exact Or.inr ⟨x, Function.update_self ..⟩
  · have hyx : y ≠ x := by
      rintro rfl
      simp [hx] at hy
    exact Or.inr ⟨y, (Function.update_of_ne hyx ..).trans hy⟩

theorem Covers.handOver [DecidableEq P] {own : P → Option S} {free free' all : S → Prop}
    (h : Covers own free all) {v x : P} {f o : S} (hv : own v = some f) (hx : own x = none)
    (hfree : ∀ t, free t → free' t ∨ t = o) :
    Covers (Function.update (Function.update own v (some o)) x (some f)) free' all := by
  have hvx : v ≠ x := by
    rintro rfl
    simp [hv] at hx
  intro t ht
  rcases h t ht with hold | ⟨y, hy⟩
  · rcases hfree t hold with hstill | rfl
    · exact Or.inl hstill
    · exact Or.inr ⟨v, (Function.update_of_ne hvx ..).trans (Function.update_self ..)⟩
  · by_cases hyv : y = v
    · obtain rfl : f = t := Option.some.inj (hv.symm.trans (hyv ▸ hy))
      exact Or.inr ⟨x, Function.update_self ..⟩
    · have hyx : y ≠ x := by
        rintro rfl
        simp [hx] at hy
      exact Or.inr ⟨y, ((Function.update_of_ne hyx ..).trans (Function.update_of_ne hyv ..)).trans hy⟩

end OsSim.Base
