import OsSim.Base.Runs

/-!
# Clients of a shared store

Every client issues the operations of its program in order, and the calls of all
of them are interleaved on one store. When the store serves each client as a
private machine of its own would, the interleaving cannot be seen: a client is
answered what it is answered when it runs alone. `Reachable.simulates` is the
rule for a system whose steps are steps of another one or no step of it.
-/

namespace OsSim.Base

section Simulation
variable {σ τ α β : Type}

/-- A step of `S` is matched by one step of `T` or by none. -/
theorem Reachable.simulates {S : System σ α} {T : System τ β} {ok : σ → α → Prop}
    {ok' : τ → β → Prop} (R : σ → τ → Prop) (hinit : ∀ s, S.init s → ∃ t, T.init t ∧ R s t)
    (hstep : ∀ s t a s', R s t → ok s a → S.next s a s' →
      R s' t ∨ ∃ b t', ok' t b ∧ T.next t b t' ∧ R s' t')
    {s : σ} (h : Reachable S ok s) : ∃ t, Reachable T ok' t ∧ R s t := by
  induction h with
  | init h0 =>
    obtain ⟨t, ht, hR⟩ := hinit _ h0
    exact ⟨t, .init ht, hR⟩
  | step _ hok hnext ih =>
    obtain ⟨t, ht, hR⟩ := ih
    cases hstep _ t _ _ hR hok hnext with
    | inl hsame => exact ⟨t, ht, hsame⟩
    | inr hmove =>
      obtain ⟨b, t', hb, hnext', hR'⟩ := hmove
      exact ⟨t', .step ht hb hnext', hR'⟩

end Simulation

/-! ### One client -/

section Solo
variable {κ ω ρ : Type}

/-- The operations one after the other on a private machine: the answers and the
last state. -/
def solo (own : ω → κ → Option (ρ × κ)) : List ω → κ → Option (List ρ × κ)
  | [], k => some ([], k)
  | o :: rest, k => do
    let (answer, k) ← own o k
    let (answers, k) ← solo own rest k
    some (answer :: answers, k)

variable {own : ω → κ → Option (ρ × κ)}

theorem solo_cons {o : ω} {rest : List ω} {k k' : κ} {answers : List ρ}
    (h : solo own (o :: rest) k = some (answers, k')) :
    ∃ answer mid tail, own o k = some (answer, mid) ∧ solo own rest mid = some (tail, k') ∧
      answers = answer :: tail := by
  obtain ⟨⟨answer, mid⟩, hown, hrest⟩ := Option.bind_eq_some_iff.mp h
  obtain ⟨⟨tail, last⟩, htail, heq⟩ := Option.bind_eq_some_iff.mp hrest
  obtain ⟨rfl, rfl⟩ := Prod.mk.inj (Option.some.inj heq)
  exact ⟨answer, mid, tail, hown, htail, rfl⟩

theorem solo_length {l : List ω} {k k' : κ} {answers : List ρ}
    (h : solo own l k = some (answers, k')) : answers.length = l.length := by
  induction l generalizing k answers with
  | nil =>
    obtain ⟨rfl, -⟩ := Prod.mk.inj (Option.some.inj h)
    rfl
  | cons o rest ih =>
    obtain ⟨answer, mid, tail, -, htail, rfl⟩ := solo_cons h
    rw [List.length_cons, List.length_cons, ih htail]

theorem solo_append (l rest : List ω) (k : κ) :
    solo own (l ++ rest) k = (solo own l k).bind fun r =>
      (solo own rest r.2).map fun r' => (r.1 ++ r'.1, r'.2) := by
  induction l generalizing k with
  | nil => simp [solo]
  | cons o l ih =>
    simp only [List.cons_append, solo, Option.bind_eq_bind]
    cases own o k with
    | none => rfl
    | some r =>
      simp only [Option.bind_some, ih]
      cases solo own l r.2 with
      | none => rfl
      | some first =>
        simp only [Option.bind_some]
        cases solo own rest first.2 with
        | none => rfl
        | some last => rfl

/-- What a program is answered, cut anywhere. -/
theorem solo_split {l rest : List ω} {k k' : κ} {answers : List ρ}
    (h : solo own (l ++ rest) k = some (answers, k')) :
    ∃ first mid last, solo own l k = some (first, mid) ∧ solo own rest mid = some (last, k') ∧
      answers = first ++ last := by
  rw [solo_append] at h
  obtain ⟨⟨first, mid⟩, hfirst, hrest⟩ := Option.bind_eq_some_iff.mp h
  obtain ⟨⟨last, k1⟩, hlast, heq⟩ := Option.map_eq_some_iff.mp hrest
  obtain ⟨rfl, rfl⟩ := Prod.mk.inj heq
  exact ⟨first, mid, last, hfirst, hlast, rfl⟩

theorem solo_take {l : List ω} {k k' : κ} {answers : List ρ}
    (h : solo own l k = some (answers, k')) {n : ℕ} (hn : n ≤ l.length) :
    ∃ mid, solo own (l.take n) k = some (answers.take n, mid) := by
  rw [← List.take_append_drop n l] at h
  obtain ⟨first, mid, last, hfirst, -, rfl⟩ := solo_split h
  have hlen : first.length = n := by rw [solo_length hfirst, List.length_take_of_le hn]
  exact ⟨mid, by rw [hfirst, List.take_left' hlen]⟩

/-- The next operation of a program that has come to position `n`. -/
theorem solo_next {l : List ω} {k k' mid : κ} {answers first : List ρ}
    (h : solo own l k = some (answers, k')) {n : ℕ} {o : ω} (ho : l[n]? = some o)
    (hmid : solo own (l.take n) k = some (first, mid)) :
    ∃ answer next, own o mid = some (answer, next) ∧
      solo own (l.take (n + 1)) k = some (first ++ [answer], next) := by
  obtain ⟨hn, hget⟩ := List.getElem?_eq_some_iff.mp ho
  have hdrop : l = l.take n ++ o :: l.drop (n + 1) := by
    rw [← hget, ← List.drop_eq_getElem_cons hn, List.take_append_drop]
  rw [hdrop] at h
  obtain ⟨first', mid', last, hfirst, hlast, -⟩ := solo_split h
  obtain ⟨rfl, rfl⟩ := Prod.mk.inj (Option.some.inj (hmid.symm.trans hfirst))
  obtain ⟨answer, next, tail, hown, -, -⟩ := solo_cons hlast
  refine ⟨answer, next, hown, ?_⟩
  rw [List.take_add_one, ho, Option.toList_some, solo_append, hmid, Option.bind_some, solo, hown]
  rfl

theorem solo_invariant (r : κ → κ → Prop) (hrefl : ∀ k, r k k)
    (htrans : ∀ {a b c}, r a b → r b c → r a c)
    (hstep : ∀ {o k answer k'}, own o k = some (answer, k') → r k k') {l : List ω} {k k' : κ}
    {answers : List ρ} (h : solo own l k = some (answers, k')) : r k k' := by
  induction l generalizing k answers with
  | nil =>
    obtain ⟨-, rfl⟩ := Prod.mk.inj (Option.some.inj h)
    exact hrefl k
  | cons o rest ih =>
    obtain ⟨answer, mid, tail, hown, htail, -⟩ := solo_cons h
    exact htrans (hstep hown) (ih htail)

/-- A program that runs on an abstract machine runs on the one that implements it, and
each answer is one that the abstract machine allows. -/
theorem solo_simulates {κ' ρ' : Type} {spec : ω → κ' → Option (ρ' × κ')} (allows : ρ' → ρ → Prop)
    (R : κ → κ' → Prop) {prog : List ω} {k : κ} {l l' : κ'} {replies : List ρ'} (hR : R k l)
    (h : solo spec prog l = some (replies, l'))
    (hstep : ∀ {o k l reply l'}, R k l → spec o l = some (reply, l') →
      ∃ answer k', own o k = some (answer, k') ∧ allows reply answer ∧ R k' l') :
    ∃ answers k', solo own prog k = some (answers, k') ∧ List.Forall₂ allows replies answers ∧
      R k' l' := by
  induction prog generalizing k l replies with
  | nil =>
    obtain ⟨rfl, rfl⟩ := Prod.mk.inj (Option.some.inj h)
    exact ⟨[], k, rfl, .nil, hR⟩
  | cons o rest ih =>
    obtain ⟨reply, mid, tail, hspec, htail, rfl⟩ := solo_cons h
    obtain ⟨answer, k1, hown, hallows, hmid⟩ := hstep hR hspec
    obtain ⟨answers, k2, hsolo, hall, hlast⟩ := ih hmid htail
    refine ⟨answer :: answers, k2, ?_, .cons hallows hall, hlast⟩
    simp only [solo, hown, hsolo, Option.bind_eq_bind, Option.bind_some]

end Solo

/-! ### Interleaved clients -/

section Turns
variable {ι σ κ ω ρ : Type}

/-- The store, how far each client has come, and what it was answered. -/
structure Turns (ι σ ρ : Type) where
  shared : σ
  pos : ι → ℕ
  answers : ι → List ρ

def Turns.start (s : σ) : Turns ι σ ρ := ⟨s, fun _ => 0, fun _ => []⟩

/-- Client `i` issues its next operation. -/
def turn [DecidableEq ι] (call : ι → ω → σ → Option (ρ × σ)) (prog : ι → List ω)
    (t : Turns ι σ ρ) (i : ι) : Option (Turns ι σ ρ) :=
  (prog i)[t.pos i]?.bind fun o => (call i o t.shared).map fun r =>
    { shared := r.2
      pos := Function.update t.pos i (t.pos i + 1)
      answers := Function.update t.answers i (t.answers i ++ [r.1]) }

/-- The store serves the clients as their private machines would, as long as the
private states fit together. -/
def ServesAlone [DecidableEq ι] (live : ι → Prop) (call : ι → ω → σ → Option (ρ × σ))
    (own : ω → κ → Option (ρ × κ)) (fits : (ι → κ) → Prop) (R : σ → (ι → κ) → Prop) : Prop :=
  ∀ s k i o answer k', live i → R s k → own o (k i) = some (answer, k') →
    fits (Function.update k i k') →
    ∃ s', call i o s = some (answer, s') ∧ R s' (Function.update k i k')

/-- `k i` is the private state of client `i` at its position. -/
def AsAlone (own : ω → κ → Option (ρ × κ)) (prog : ι → List ω) (start : ι → κ)
    (pos : ι → ℕ) (answers : ι → List ρ) (k : ι → κ) : Prop :=
  ∀ i, solo own ((prog i).take (pos i)) (start i) = some (answers i, k i)

variable [DecidableEq ι] {live : ι → Prop} {call : ι → ω → σ → Option (ρ × σ)}
  {own : ω → κ → Option (ρ × κ)} {fits : (ι → κ) → Prop} {R : σ → (ι → κ) → Prop}
  {prog : ι → List ω} {start : ι → κ}

theorem asAlone_next {pos : ι → ℕ} {answers : ι → List ρ} {k : ι → κ}
    (h : AsAlone own prog start pos answers k) {i : ι} {answer : ρ} {k' : κ}
    (hnext : solo own ((prog i).take (pos i + 1)) (start i) = some (answers i ++ [answer], k')) :
    AsAlone own prog start (Function.update pos i (pos i + 1))
      (Function.update answers i (answers i ++ [answer])) (Function.update k i k') := by
  intro j
  by_cases hji : j = i
  · subst hji
    simp only [Function.update_self]
    exact hnext
  · simp only [Function.update_of_ne hji]
    exact h j

/-- A client whose program runs alone gets its turn, and its next answer. -/
theorem turn_alone (hserves : ServesAlone live call own fits R)
    (hfits : ∀ pos answers k, AsAlone own prog start pos answers k → fits k)
    (hsolo : ∀ i, live i → (solo own (prog i) (start i)).isSome = true) {t : Turns ι σ ρ} {k : ι → κ}
    (hR : R t.shared k) (halone : AsAlone own prog start t.pos t.answers k) {i : ι} (hi : live i)
    (hpos : t.pos i < (prog i).length) :
    ∃ t' k', turn call prog t i = some t' ∧ R t'.shared k' ∧
      AsAlone own prog start t'.pos t'.answers k' := by
  obtain ⟨⟨answers, last⟩, hall⟩ := Option.isSome_iff_exists.mp (hsolo i hi)
  have ho : (prog i)[t.pos i]? = some (prog i)[t.pos i] := List.getElem?_eq_getElem hpos
  obtain ⟨answer, k', hown, hnext⟩ := solo_next hall ho (halone i)
  have hall' := asAlone_next halone hnext
  obtain ⟨s', hcall, hR'⟩ := hserves t.shared k i _ answer k' hi hR hown (hfits _ _ _ hall')
  refine ⟨⟨s', Function.update t.pos i (t.pos i + 1),
    Function.update t.answers i (t.answers i ++ [answer])⟩, Function.update k i k', ?_, hR', hall'⟩
  rw [turn, ho, Option.bind_some, hcall, Option.map_some]

/-- In every interleaving each client is answered what it is answered alone, and
its next operation is served. -/
theorem turns_alone (hserves : ServesAlone live call own fits R)
    (hfits : ∀ pos answers k, AsAlone own prog start pos answers k → fits k)
    (hsolo : ∀ i, live i → (solo own (prog i) (start i)).isSome = true) {s0 : σ}
    (hR0 : R s0 start) {t : Turns ι σ ρ}
    (h : Reachable (System.ofStep (Turns.start s0) (turn call prog)) (fun _ i => live i) t) :
    ∃ k, R t.shared k ∧ AsAlone own prog start t.pos t.answers k := by
  induction h with
  | init h0 =>
    obtain rfl := h0
    exact ⟨start, hR0, fun i => by simp [Turns.start, solo]⟩
  | @step u t i _ hi hnext ih =>
    obtain ⟨k, hR, halone⟩ := ih
    obtain ⟨o, ho, -⟩ := Option.bind_eq_some_iff.mp hnext
    have hpos : u.pos i < (prog i).length := (List.getElem?_eq_some_iff.mp ho).1
    obtain ⟨t', k', hturn, hR', halone'⟩ := turn_alone hserves hfits hsolo hR halone hi hpos
    obtain rfl := Option.some.inj (hturn.symm.trans hnext)
    exact ⟨k', hR', halone'⟩

end Turns

end OsSim.Base
