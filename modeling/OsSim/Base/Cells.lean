import OsSim.Base.Chain

/-!
# Lists in a heap of cells

Cells from `malloc` with a value and a pointer to the next cell. An address that
was freed may be handed out again. `Roots` are the pointers that a program keeps,
each the head of a list, and `Holds` says that they all are: every list ends at the
null pointer, and no cell is in two of them. Each operation changes the list at one
root and leaves the others as they are.
-/

namespace OsSim.Base

variable {V : Type}

structure Cell (V : Type) where
  value : V
  next : Option ℕ

/-- The live cells by address. From `brk` on no address was ever handed out. -/
structure CellHeap (V : Type) where
  cell : ℕ → Option (Cell V)
  brk : ℕ
  above : ∀ a, brk ≤ a → cell a = none

namespace CellHeap

def next (H : CellHeap V) (a : ℕ) : Option (Option ℕ) := (H.cell a).map Cell.next

def set (H : CellHeap V) (a : ℕ) (c : Cell V) : CellHeap V where
  cell := Function.update H.cell a (some c)
  brk := max H.brk (a + 1)
  above b hb := by
    have hne : b ≠ a := by omega
    rw [Function.update_of_ne hne]
    exact H.above b (by omega)

def clear (H : CellHeap V) (a : ℕ) : CellHeap V where
  cell := Function.update H.cell a none
  brk := H.brk
  above b hb := by
    by_cases hba : b = a
    · rw [hba, Function.update_self]
    · rw [Function.update_of_ne hba]
      exact H.above b hb

/-- `*a = c`, with no result where no cell is live. -/
def store (H : CellHeap V) (a : ℕ) (c : Cell V) : Option (CellHeap V) :=
  (H.cell a).map fun _ => H.set a c

/-- `free(a)`, with no result where no cell is live. -/
def free (H : CellHeap V) (a : ℕ) : Option (CellHeap V) := (H.cell a).map fun _ => H.clear a

end CellHeap

/-- What `malloc` returns: an address that is not in use. -/
structure Allocator (V : Type) where
  addr : CellHeap V → ℕ
  unused : ∀ H : CellHeap V, H.cell (addr H) = none

/-- A new cell, filled. -/
def Allocator.malloc (m : Allocator V) (H : CellHeap V) (c : Cell V) : ℕ × CellHeap V :=
  (m.addr H, H.set (m.addr H) c)

/-- The lowest unused address. -/
def Allocator.lowest : Allocator V where
  addr H := ((List.range H.brk).find? fun a => (H.cell a).isNone).getD H.brk
  unused H := by
    cases hfind : (List.range H.brk).find? fun a => (H.cell a).isNone with
    | none => exact H.above _ le_rfl
    | some a =>
      have hnone := List.find?_some hfind
      exact Option.isNone_iff_eq_none.mp hnone

/-! ### One list -/

/-- The cells from `p` on, their addresses and values. -/
inductive ListAt (H : CellHeap V) : Option ℕ → List ℕ → List V → Prop where
  | nil : ListAt H none [] []
  | cons {a : ℕ} {v : V} {q : Option ℕ} {as : List ℕ} {vs : List V} :
      H.cell a = some ⟨v, q⟩ → ListAt H q as vs → ListAt H (some a) (a :: as) (v :: vs)

section List
variable {H H' : CellHeap V} {p : Option ℕ} {as : List ℕ} {vs : List V}

theorem ListAt.linked (h : ListAt H p as vs) : Linked H.next p as := by
  induction h with
  | nil => exact .nil
  | cons hcell _ ih => exact .cons (by rw [CellHeap.next, hcell, Option.map_some]) ih

theorem ListAt.live (h : ListAt H p as vs) {a : ℕ} (ha : a ∈ as) : H.cell a ≠ none := by
  intro hnone
  obtain ⟨q, hq⟩ := h.linked.exists_node ha
  rw [CellHeap.next, hnone] at hq
  cases hq

theorem ListAt.length_eq (h : ListAt H p as vs) : as.length = vs.length := by
  induction h with
  | nil => rfl
  | cons _ _ ih => rw [List.length_cons, List.length_cons, ih]

/-- No list is longer than the heap. -/
theorem ListAt.length_le (h : ListAt H p as vs) : vs.length ≤ H.brk := by
  have hbelow : as ⊆ List.range H.brk := by
    intro a ha
    rw [List.mem_range]
    by_contra hge
    exact h.live ha (H.above a (not_lt.mp hge))
  have hle := (h.linked.nodup.subperm hbelow).length_le
  rwa [List.length_range, h.length_eq] at hle

theorem ListAt.congr (h : ListAt H p as vs) (hsame : ∀ a ∈ as, H'.cell a = H.cell a) :
    ListAt H' p as vs := by
  induction h with
  | nil => exact .nil
  | cons hcell _ ih =>
    have hhead := (hsame _ (List.mem_cons_self ..)).trans hcell
    exact .cons hhead (ih fun b hb => hsame b (List.mem_cons_of_mem _ hb))

theorem ListAt.null (h : ListAt H p as vs) : p = none ↔ vs = [] := by
  cases h with
  | nil => exact ⟨fun _ => rfl, fun _ => rfl⟩
  | cons _ _ => simp

theorem ListAt.head {a : ℕ} (h : ListAt H (some a) as vs) : ∃ v q as' vs',
    as = a :: as' ∧ vs = v :: vs' ∧ H.cell a = some ⟨v, q⟩ ∧ ListAt H q as' vs' := by
  cases h with
  | cons hcell hrest => exact ⟨_, _, _, _, rfl, rfl, hcell, hrest⟩

theorem ListAt.set_of_notMem (h : ListAt H p as vs) {a : ℕ} (ha : a ∉ as) (c : Cell V) :
    ListAt (H.set a c) p as vs := by
  refine h.congr fun b hb => Function.update_of_ne ?_ _ _
  intro heq
  exact ha (heq ▸ hb)

theorem ListAt.clear_of_notMem (h : ListAt H p as vs) {a : ℕ} (ha : a ∉ as) :
    ListAt (H.clear a) p as vs := by
  refine h.congr fun b hb => Function.update_of_ne ?_ _ _
  intro heq
  exact ha (heq ▸ hb)

end List

/-! ### Walks -/

/-- `while (p != NULL) { if (ok(p->value)) break; p = p->next; }` within that many cells.
The value may turn out to be of another type. -/
def CellHeap.find (H : CellHeap V) (ok : V → Option Bool) :
    ℕ → Option ℕ → Option (Option (ℕ × Cell V))
  | _, none => some none
  | 0, some _ => none
  | fuel + 1, some a => do
    let c ← H.cell a
    if ← ok c.value then some (some (a, c)) else H.find ok fuel c.next

/-- The first value that is `ok`, and the list with `f` of it in its place. -/
def replaceFirst (ok : V → Bool) (f : V → V) : List V → Option (V × List V)
  | [] => none
  | v :: vs =>
    if ok v then some (v, f v :: vs) else (replaceFirst ok f vs).map fun (w, ws) => (w, v :: ws)

section Walks
variable {H : CellHeap V} {p : Option ℕ} {as : List ℕ} {vs : List V}

theorem ListAt.find {ok : V → Option Bool} {good : V → Bool} (f : V → V) (h : ListAt H p as vs)
    (hok : ∀ v ∈ vs, ok v = some (good v)) {fuel : ℕ} (hfuel : vs.length ≤ fuel) :
    replaceFirst good f vs = none ∧ H.find ok fuel p = some none ∨
      ∃ v vs' a q, replaceFirst good f vs = some (v, vs') ∧ v ∈ vs ∧
        H.find ok fuel p = some (some (a, ⟨v, q⟩)) ∧ a ∈ as ∧ H.cell a = some ⟨v, q⟩ ∧
        ListAt (H.set a ⟨f v, q⟩) p as vs' := by
  induction h generalizing fuel with
  | nil =>
    refine Or.inl ⟨rfl, ?_⟩
    rw [CellHeap.find]
  | @cons a v q as vs hcell hrest ih =>
    cases fuel with
    | zero => exact absurd hfuel (Nat.not_succ_le_zero _)
    | succ fuel =>
      have hv := hok v (List.mem_cons_self ..)
      have ha : a ∉ as := (List.nodup_cons.mp (ListAt.cons hcell hrest).linked.nodup).1
      rw [replaceFirst, CellHeap.find]
      simp only [hcell, hv, Option.bind_eq_bind, Option.bind_some]
      cases hgood : good v with
      | true =>
        rw [if_pos rfl, if_pos rfl]
        have hhead : (H.set a ⟨f v, q⟩).cell a = some ⟨f v, q⟩ := Function.update_self ..
        exact Or.inr ⟨v, _, a, q, rfl, List.mem_cons_self .., rfl, List.mem_cons_self .., hcell,
          .cons hhead (hrest.set_of_notMem ha _)⟩
      | false =>
        rw [if_neg Bool.false_ne_true, if_neg Bool.false_ne_true]
        have hrestOk := fun w hw => hok w (List.mem_cons_of_mem v hw)
        rcases ih hrestOk (Nat.le_of_succ_le_succ hfuel) with
          ⟨hnone, hwalk⟩ | ⟨w, ws, b, r, hsome, hw, hwalk, hb, hbcell, hlist⟩
        · exact Or.inl ⟨by rw [hnone, Option.map_none], hwalk⟩
        · have hab : a ≠ b := by
            intro heq
            exact ha (heq ▸ hb)
          have hhead : (H.set b ⟨f w, r⟩).cell a = some ⟨v, q⟩ :=
            (Function.update_of_ne hab _ _).trans hcell
          exact Or.inr ⟨w, v :: ws, b, r, by rw [hsome, Option.map_some], List.mem_cons_of_mem _ hw,
            hwalk, List.mem_cons_of_mem _ hb, hbcell, .cons hhead hlist⟩

/-- The last cell and the one before it, whose pointer cuts the last one off. -/
theorem ListAt.last {a : ℕ} (h : ListAt H (some a) as vs) {fuel : ℕ} (hfuel : vs.length ≤ fuel)
    (prev : Option ℕ) : ∃ prev' b v, walkLast H.next fuel prev a = some (prev', b) ∧
      H.cell b = some ⟨v, none⟩ ∧ vs.getLast? = some v ∧
      (prev' = prev ∧ vs.dropLast = [] ∨ ∃ c e, prev' = some c ∧ c ∈ as ∧ H.cell c = some e ∧
        ListAt (H.set c { e with next := none }) (some a) as.dropLast vs.dropLast) := by
  induction vs generalizing a as fuel prev with
  | nil => cases h
  | cons v vs ih =>
    obtain ⟨w, q, as', vs', rfl, hvs, hcell, hrest⟩ := h.head
    obtain ⟨rfl, rfl⟩ := List.cons.inj hvs
    cases fuel with
    | zero => exact absurd hfuel (Nat.not_succ_le_zero _)
    | succ fuel =>
      rw [walkLast, CellHeap.next, hcell, Option.map_some]
      cases q with
      | none =>
        obtain rfl := hrest.null.mp rfl
        exact ⟨prev, a, v, rfl, hcell, rfl, Or.inl ⟨rfl, rfl⟩⟩
      | some b =>
        obtain ⟨w, r, as1, vs1, rfl, rfl, hbcell, hrest1⟩ := hrest.head
        have hnodup := h.linked.nodup
        have ha : a ∉ b :: as1 := (List.nodup_cons.mp hnodup).1
        obtain ⟨prev', c, u, hwalk, hc, hlast, hcase⟩ :=
          ih hrest (Nat.le_of_succ_le_succ hfuel) (some a)
        refine ⟨prev', c, u, hwalk, hc, by rw [List.getLast?_cons_cons, hlast], Or.inr ?_⟩
        rcases hcase with ⟨rfl, hdrop⟩ | ⟨d, e, rfl, hd, hdcell, hlist⟩
        · have hlen : as1.length = vs1.length := hrest1.length_eq
          have hvs1 : vs1 = [] := by
            cases vs1 with
            | nil => rfl
            | cons _ _ => simp at hdrop
          subst hvs1
          obtain rfl := List.length_eq_zero_iff.mp hlen
          have hhead : (H.set a ⟨v, none⟩).cell a = some ⟨v, none⟩ := Function.update_self ..
          exact ⟨a, _, rfl, List.mem_cons_self .., hcell, .cons hhead .nil⟩
        · have had : a ≠ d := by
            intro heq
            exact ha (heq ▸ hd)
          have hhead : (H.set d { e with next := none }).cell a = some ⟨v, some b⟩ :=
            (Function.update_of_ne had _ _).trans hcell
          exact ⟨d, e, rfl, List.mem_cons_of_mem _ hd, hdcell, .cons hhead hlist⟩

end Walks

/-! ### All the lists -/

/-- The pointers of a program and the list that each one holds. -/
@[ext]
structure Roots (V K : Type) where
  head : K → Option ℕ
  list : K → List V

/-- One more pointer, such as a local variable. -/
def Roots.cons {K : Type} (r : Roots V K) (p : Option ℕ) (vs : List V) : Roots V (Option K) :=
  ⟨fun k => k.elim p r.head, fun k => k.elim vs r.list⟩

def Roots.set {K : Type} [DecidableEq K] (r : Roots V K) (k : K) (p : Option ℕ) (vs : List V) :
    Roots V K :=
  ⟨Function.update r.head k p, Function.update r.list k vs⟩

section Roots
variable {K : Type} [DecidableEq K] (r : Roots V K)

theorem Roots.set_same {k : K} {p : Option ℕ} {vs : List V} (hp : r.head k = p)
    (hvs : r.list k = vs) : r.set k p vs = r := by
  subst hp hvs
  rw [Roots.set, Function.update_eq_self, Function.update_eq_self]

theorem Roots.cons_set_none (p p' : Option ℕ) (vs vs' : List V) :
    (r.cons p vs).set none p' vs' = r.cons p' vs' := by
  ext1 <;> funext k
  · cases k <;> rfl
  · cases k <;> rfl

theorem Roots.cons_set_some (k : K) (p p' : Option ℕ) (vs vs' : List V) :
    (r.cons p vs).set (some k) p' vs' = (r.set k p' vs').cons p vs := by
  ext1 <;> funext j
  all_goals
    cases j with
    | none => rfl
    | some j =>
      by_cases hj : j = k
      · subst hj
        simp [Roots.set, Roots.cons]
      · simp [Roots.set, Roots.cons, hj]

end Roots

/-- Root `k` holds its list in the cells `cells k`. -/
structure CellHeap.Owns {K : Type} (H : CellHeap V) (r : Roots V K) (cells : K → List ℕ) :
    Prop where
  list : ∀ k, ListAt H (r.head k) (cells k) (r.list k)
  disjoint : ∀ j k, j ≠ k → (cells j).Disjoint (cells k)

def CellHeap.Holds {K : Type} (H : CellHeap V) (r : Roots V K) : Prop := ∃ cells, H.Owns r cells

section Owns
variable {K : Type} [DecidableEq K] {H H' : CellHeap V} {r : Roots V K} {cells : K → List ℕ} {k : K}

/-- What changes one list: the cells of the others are left alone. -/
theorem CellHeap.Owns.change (h : H.Owns r cells) {p : Option ℕ} {as : List ℕ} {vs : List V}
    (hlist : ListAt H' p as vs)
    (hsame : ∀ j, j ≠ k → ∀ a ∈ cells j, H'.cell a = H.cell a ∧ a ∉ as) :
    H'.Owns (r.set k p vs) (Function.update cells k as) := by
  constructor
  · intro j
    unfold Roots.set
    by_cases hj : j = k
    · subst hj
      simpa only [Function.update_self] using hlist
    · simp only [Function.update_of_ne hj]
      exact (h.list j).congr fun a ha => (hsame j hj a ha).1
  · intro i j hij a hi hj
    by_cases hik : i = k
    · subst hik
      rw [Function.update_self] at hi
      rw [Function.update_of_ne (Ne.symm hij)] at hj
      exact (hsame j (Ne.symm hij) a hj).2 hi
    · rw [Function.update_of_ne hik] at hi
      by_cases hjk : j = k
      · subst hjk
        rw [Function.update_self] at hj
        exact (hsame i hik a hi).2 hj
      · rw [Function.update_of_ne hjk] at hj
        exact h.disjoint i j hij hi hj

/-- A write to a cell of one list. -/
theorem CellHeap.Owns.write (h : H.Owns r cells) {p : Option ℕ} {as : List ℕ} {vs : List V} {a : ℕ}
    {c : Cell V} (hsub : as ⊆ cells k) (ha : a ∈ cells k) (hlist : ListAt (H.set a c) p as vs) :
    (H.set a c).Owns (r.set k p vs) (Function.update cells k as) := by
  refine h.change hlist fun j hj b hb => ⟨Function.update_of_ne ?_ _ _, ?_⟩
  · intro heq
    exact h.disjoint j k hj hb (heq ▸ ha)
  · intro hmem
    exact h.disjoint j k hj hb (hsub hmem)

/-- A cell that is in no list becomes the first one. -/
theorem CellHeap.Owns.put (h : H.Owns r cells) {a : ℕ} (ha : ∀ j, a ∉ cells j) (k : K) (v : V) :
    (H.set a ⟨v, r.head k⟩).Owns (r.set k (some a) (v :: r.list k))
      (Function.update cells k (a :: cells k)) := by
  have hrest : ListAt (H.set a ⟨v, r.head k⟩) (r.head k) (cells k) (r.list k) :=
    (h.list k).set_of_notMem (ha k) _
  refine h.change (.cons (Function.update_self ..) hrest) fun j hj b hb => ?_
  have hne : b ≠ a := by
    intro heq
    exact ha j (heq ▸ hb)
  refine ⟨Function.update_of_ne hne _ _, fun hmem => ?_⟩
  cases List.mem_cons.mp hmem with
  | inl heq => exact hne heq
  | inr htail => exact h.disjoint j k hj hb htail

/-- The list is given up; its cells stay allocated. -/
theorem CellHeap.Owns.forget (h : H.Owns r cells) (k : K) :
    H.Owns (r.set k none []) (Function.update cells k []) :=
  h.change .nil fun _ _ _ _ => ⟨rfl, List.not_mem_nil⟩

end Owns

namespace CellHeap.Holds
variable {K : Type} {H : CellHeap V} {r : Roots V K}

theorem listAt (h : H.Holds r) (k : K) : ∃ as, ListAt H (r.head k) as (r.list k) := by
  obtain ⟨cells, howns⟩ := h
  exact ⟨cells k, howns.list k⟩

theorem null (h : H.Holds r) (k : K) : r.head k = none ↔ r.list k = [] := by
  obtain ⟨as, hlist⟩ := h.listAt k
  exact hlist.null

/-- The roots under other names, some of them not yet there or gone. -/
theorem reindex {K' : Type} (h : H.Holds r) (f : K' → Option K)
    (hinj : ∀ i j k, f i = some k → f j = some k → i = j) {r' : Roots V K'}
    (hr : ∀ i k, f i = some k → r'.head i = r.head k ∧ r'.list i = r.list k)
    (hnew : ∀ i, f i = none → r'.head i = none ∧ r'.list i = []) : H.Holds r' := by
  obtain ⟨cells, howns⟩ := h
  refine ⟨fun i => (f i).elim [] cells, fun i => ?_, fun i j hij => ?_⟩
  · cases hf : f i with
    | none =>
      rw [(hnew i hf).1, (hnew i hf).2]
      exact .nil
    | some k =>
      rw [(hr i k hf).1, (hr i k hf).2]
      exact howns.list k
  · cases hfi : f i with
    | none => exact List.disjoint_nil_left _
    | some k =>
      cases hfj : f j with
      | none => exact List.disjoint_nil_right _
      | some l =>
        refine howns.disjoint k l fun hkl => hij (hinj i j k hfi ?_)
        rw [hfj, hkl]

variable [DecidableEq K]

/-- A write of the value in the first cell. -/
theorem setHead (h : H.Holds r) {k : K} {a : ℕ} (hk : r.head k = some a) {v : V} {vs : List V}
    (hv : r.list k = v :: vs) : ∃ q, H.cell a = some ⟨v, q⟩ ∧
      ∀ w, (H.set a ⟨w, q⟩).Holds (r.set k (some a) (w :: vs)) := by
  obtain ⟨cells, howns⟩ := h
  have hlist := howns.list k
  rw [hk, hv] at hlist
  obtain ⟨u, q, as, us, has, hvs, hcell, hrest⟩ := hlist.head
  obtain ⟨rfl, rfl⟩ := List.cons.inj hvs
  have ha : a ∉ as := by
    have hnodup := hlist.linked.nodup
    rw [has] at hnodup
    exact (List.nodup_cons.mp hnodup).1
  refine ⟨q, hcell, fun w => ⟨_, howns.write (List.Subset.refl _) (has ▸ List.mem_cons_self ..) ?_⟩⟩
  rw [has]
  exact .cons (Function.update_self ..) (hrest.set_of_notMem ha _)

/-- A write of the first value that is `ok`. -/
theorem find (h : H.Holds r) (k : K) {ok : V → Option Bool} {good : V → Bool} (f : V → V)
    (hok : ∀ v ∈ r.list k, ok v = some (good v)) :
    replaceFirst good f (r.list k) = none ∧ H.find ok H.brk (r.head k) = some none ∨
      ∃ v vs a q, replaceFirst good f (r.list k) = some (v, vs) ∧
        H.find ok H.brk (r.head k) = some (some (a, ⟨v, q⟩)) ∧ H.cell a = some ⟨v, q⟩ ∧
        (H.set a ⟨f v, q⟩).Holds (r.set k (r.head k) vs) := by
  obtain ⟨cells, howns⟩ := h
  have hlist := howns.list k
  rcases hlist.find f hok hlist.length_le with
    hnone | ⟨v, vs, a, q, hsome, -, hwalk, ha, hcell, hnew⟩
  · exact Or.inl hnone
  · exact Or.inr ⟨v, vs, a, q, hsome, hwalk, hcell, _, howns.write (List.Subset.refl _) ha hnew⟩

/-- The last cell, cut off by a write to the one before it. -/
theorem last (h : H.Holds r) {k : K} {a : ℕ} (hk : r.head k = some a) :
    ∃ prev b v, walkLast H.next H.brk none a = some (prev, b) ∧ H.cell b = some ⟨v, none⟩ ∧
      (r.list k).getLast? = some v ∧ (prev = none ∧ (r.list k).dropLast = [] ∨
        ∃ c e, prev = some c ∧ H.cell c = some e ∧
          (H.set c { e with next := none }).Holds (r.set k (some a) (r.list k).dropLast)) := by
  obtain ⟨cells, howns⟩ := h
  have hlist := howns.list k
  rw [hk] at hlist
  obtain ⟨prev, b, v, hwalk, hcell, hlast, hcase⟩ := hlist.last hlist.length_le none
  refine ⟨prev, b, v, hwalk, hcell, hlast, ?_⟩
  rcases hcase with hone | ⟨c, e, hprev, hc, hccell, hnew⟩
  · exact Or.inl hone
  · exact Or.inr ⟨c, e, hprev, hccell, _, howns.write (List.dropLast_subset _) hc hnew⟩

theorem push (h : H.Holds r) (m : Allocator V) (k : K) (v : V) :
    (m.malloc H ⟨v, r.head k⟩).2.Holds
      (r.set k (some (m.malloc H ⟨v, r.head k⟩).1) (v :: r.list k)) := by
  obtain ⟨cells, howns⟩ := h
  exact ⟨_, howns.put (fun j hmem => (howns.list j).live hmem (m.unused H)) k v⟩

theorem pop (h : H.Holds r) {k : K} {a : ℕ} (hk : r.head k = some a) :
    ∃ v q vs, r.list k = v :: vs ∧ H.cell a = some ⟨v, q⟩ ∧ (H.clear a).Holds (r.set k q vs) := by
  obtain ⟨cells, howns⟩ := h
  have hlist := howns.list k
  rw [hk] at hlist
  obtain ⟨v, q, as, vs, has, hvs, hcell, hrest⟩ := hlist.head
  have ha : a ∉ as := by
    have hnodup := hlist.linked.nodup
    rw [has] at hnodup
    exact (List.nodup_cons.mp hnodup).1
  refine ⟨v, q, vs, hvs, hcell, _, howns.change (hrest.clear_of_notMem ha) fun j hj b hb => ?_⟩
  have hnot : b ∉ a :: as := fun hmem => howns.disjoint j k hj hb (has ▸ hmem)
  exact ⟨Function.update_of_ne (List.ne_of_not_mem_cons hnot) _ _,
    List.not_mem_of_not_mem_cons hnot⟩

theorem forget (h : H.Holds r) (k : K) : H.Holds (r.set k none []) := by
  obtain ⟨cells, howns⟩ := h
  exact ⟨_, howns.forget k⟩

/-- The only cell of list `j` becomes the first one of list `k`. -/
theorem link (h : H.Holds r) {j k : K} (hjk : j ≠ k) {a : ℕ} {v : V} (hj : r.head j = some a)
    (hv : r.list j = [v]) : H.cell a = some ⟨v, none⟩ ∧
      (H.set a ⟨v, r.head k⟩).Holds ((r.set j none []).set k (some a) (v :: r.list k)) := by
  obtain ⟨cells, howns⟩ := h
  have hlist := howns.list j
  rw [hj, hv] at hlist
  obtain ⟨w, q, as, vs, has, hvs, hcell, hrest⟩ := hlist.head
  obtain ⟨rfl, rfl⟩ := List.cons.inj hvs
  obtain rfl := hrest.null.mpr rfl
  have hin : a ∈ cells j := has ▸ List.mem_cons_self ..
  have hnot : ∀ i, a ∉ Function.update cells j [] i := by
    intro i hmem
    by_cases hi : i = j
    · subst hi
      rw [Function.update_self] at hmem
      exact List.not_mem_nil hmem
    · rw [Function.update_of_ne hi] at hmem
      exact howns.disjoint i j hi hmem hin
  have hput := (howns.forget j).put hnot k v
  have hhead : (r.set j none []).head k = r.head k := Function.update_of_ne (Ne.symm hjk) _ _
  have hvals : (r.set j none []).list k = r.list k := Function.update_of_ne (Ne.symm hjk) _ _
  rw [hhead, hvals] at hput
  exact ⟨hcell, _, hput⟩

end CellHeap.Holds

end OsSim.Base
