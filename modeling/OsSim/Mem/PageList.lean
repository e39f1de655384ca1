import OsSim.Base.Chain
import OsSim.Mem.Libmem

/-!
# The page list as nodes and pointers (mm.c:292-301, libmem.c:466-491)

`Mm` keeps `fifo_pgn` as a list of pages, newest first. Here it is what the C code
builds: `enlist_pgn_node` puts a new node in front, `find_victim_page` walks to the
last node with a pointer to the one before it and cuts it off. The node is not freed,
so its address is never handed out again. The list is a queue: what is enlisted waits
at one end and leaves at the other.
-/

namespace OsSim.Mem
open OsSim.Base

/-- `struct pgn_t` (`os-mm.h:13-16`); a `NULL` pointer is `none`. -/
structure PgnT where
  pgn : ℤ
  pgNext : Option ℕ

/-- The live nodes by address. -/
abbrev PgnHeap := ℕ → Option PgnT

/-- `mm->fifo_pgn`, the nodes, and the number of nodes that `malloc` has returned. -/
structure PageNodes where
  heap : PgnHeap
  fifoPgn : Option ℕ
  mallocs : ℕ

/-- The addresses that the calls of `malloc` return: new and all different. -/
structure PgnMalloc (heap : PgnHeap) where
  addr : ℕ → ℕ
  injective : Function.Injective addr
  unused : ∀ i, heap (addr i) = none

def pgNextOf (heap : PgnHeap) (a : ℕ) : Option (Option ℕ) := (heap a).map PgnT.pgNext

/-- `enlist_pgn_node` (`mm.c:292-301`). -/
def enlistPgnNodes (addr : ℕ → ℕ) (s : PageNodes) (pgn : ℤ) : PageNodes :=
  let pnode := addr s.mallocs
  { heap := Function.update s.heap pnode (some ⟨pgn, s.fifoPgn⟩)
    fifoPgn := some pnode
    mallocs := s.mallocs + 1 }

/-- `find_victim_page` (`libmem.c:466-491`): the node cut off and `*retpgn`, or `none`
for -1. The walk may make that many tests. -/
def findVictimPageNodes (fuel : ℕ) (s : PageNodes) : Option (Option (ℕ × ℤ) × PageNodes) :=
  match s.fifoPgn with
  | none => some (none, s)
  | some pg => do
    let (prevPg, pg) ← walkLast (pgNextOf s.heap) fuel none pg
    let last ← s.heap pg
    match prevPg with
    | some prev =>
      let node ← s.heap prev
      some (some (pg, last.pgn),
        { s with heap := Function.update s.heap prev (some { node with pgNext := none }) })
    | none => some (some (pg, last.pgn), { s with fifoPgn := none })

inductive PageOp where
  | enlist (pgn : ℤ)
  | victim

/-- The results of the `find_victim_page`s and the list at the end. -/
def pageRun (addr : ℕ → ℕ) (fuel : ℕ) :
    PageNodes → List PageOp → Option (List (Option (ℕ × ℤ)) × PageNodes)
  | s, [] => some ([], s)
  | s, .enlist pgn :: ops => pageRun addr fuel (enlistPgnNodes addr s pgn) ops
  | s, .victim :: ops => do
    let (r, s) ← findVictimPageNodes fuel s
    let (results, s) ← pageRun addr fuel s ops
    some (r :: results, s)

/-- The pages enlisted, in order. -/
def pagesEnlisted : List PageOp → List ℤ
  | [] => []
  | .enlist pgn :: ops => pgn :: pagesEnlisted ops
  | .victim :: ops => pagesEnlisted ops

/-- Each of them with its node, the next call of `malloc` being call `i`. -/
def enlisted (addr : ℕ → ℕ) (i : ℕ) (ops : List PageOp) : List (ℕ × ℤ) :=
  (pagesEnlisted ops).zipIdx i |>.map fun r => (addr r.2, r.1)

/-! ### One operation -/

/-- The entries that wait in the list, oldest first. -/
structure Waits (addr : ℕ → ℕ) (s : PageNodes) (waiting : List (ℕ × ℤ)) : Prop where
  chain : Linked (pgNextOf s.heap) s.fifoPgn (waiting.map Prod.fst).reverse
  page : ∀ e ∈ waiting, (s.heap e.1).map PgnT.pgn = some e.2
  unused : ∀ i, s.mallocs ≤ i → s.heap (addr i) = none

theorem pgNextOf_update (heap : PgnHeap) (a : ℕ) (node : PgnT) :
    pgNextOf (Function.update heap a (some node)) =
      Function.update (pgNextOf heap) a (some node.pgNext) := by
  funext b
  unfold pgNextOf
  by_cases hb : b = a
  · subst hb
    simp
  · simp [hb]

/-- Only the pointer of `a` changes. -/
theorem page_update {heap : PgnHeap} {a : ℕ} {node : PgnT} (ha : heap a = some node)
    (pgNext : Option ℕ) (b : ℕ) :
    (Function.update heap a (some { node with pgNext := pgNext }) b).map PgnT.pgn =
      (heap b).map PgnT.pgn := by
  by_cases hb : b = a
  · subst hb
    simp [ha]
  · rw [Function.update_of_ne hb]

section Ops
variable {addr : ℕ → ℕ} {s : PageNodes} {waiting : List (ℕ × ℤ)}

theorem Waits.enlist (h : Waits addr s waiting) (hinj : Function.Injective addr) (pgn : ℤ) :
    Waits addr (enlistPgnNodes addr s pgn) (waiting ++ [(addr s.mallocs, pgn)]) := by
  have hnew := h.unused s.mallocs le_rfl
  have hnext : pgNextOf s.heap (addr s.mallocs) = none := by rw [pgNextOf, hnew, Option.map_none]
  refine ⟨?_, fun e he => ?_, fun i hi => ?_⟩
  · rw [List.map_append, List.reverse_append]
    unfold enlistPgnNodes
    dsimp only
    rw [pgNextOf_update]
    exact h.chain.push hnext
  · cases List.mem_append.mp he with
    | inl hold =>
      have hne : e.1 ≠ addr s.mallocs := by
        intro heq
        have hpage := h.page e hold
        rw [heq, hnew] at hpage
        cases hpage
      exact (congrArg _ (Function.update_of_ne hne _ _)).trans (h.page e hold)
    | inr hlast =>
      obtain rfl := List.mem_singleton.mp hlast
      simp [enlistPgnNodes]
  · have hi : s.mallocs + 1 ≤ i := hi
    have hne : addr i ≠ addr s.mallocs := by
      intro heq
      have := hinj heq
      omega
    exact (Function.update_of_ne hne _ _).trans (h.unused i (by omega))

theorem Waits.null (h : Waits addr s []) (fuel : ℕ) :
    findVictimPageNodes fuel s = some (none, s) := by
  have hnull : s.fifoPgn = none := by
    cases hp : s.fifoPgn with
    | none => rfl
    | some pg =>
      have hchain := h.chain
      rw [hp] at hchain
      cases hchain
  rw [findVictimPageNodes, hnull]

/-- Clearing the pointer of a node of the list changes neither a page nor what is unused. -/
theorem Waits.cut {e : ℕ × ℤ} {prev : ℕ} {node : PgnT} (h : Waits addr s (e :: waiting))
    (hnode : s.heap prev = some node)
    (hchain : Linked (Function.update (pgNextOf s.heap) prev (some none)) s.fifoPgn
      (waiting.map Prod.fst).reverse) :
    Waits addr { s with heap := Function.update s.heap prev (some { node with pgNext := none }) }
      waiting where
  chain := by
    rw [pgNextOf_update]
    exact hchain
  page e' he' := (page_update hnode none e'.1).trans (h.page e' (List.mem_cons_of_mem _ he'))
  unused i hi := by
    have hold := h.unused i hi
    have hne : addr i ≠ prev := by
      intro heq
      rw [heq, hnode] at hold
      cases hold
    exact (Function.update_of_ne hne _ _).trans hold

theorem Waits.victim {e : ℕ × ℤ} (h : Waits addr s (e :: waiting)) {fuel : ℕ}
    (hfuel : waiting.length < fuel) :
    ∃ s', findVictimPageNodes fuel s = some (some e, s') ∧ Waits addr s' waiting ∧
      s'.mallocs = s.mallocs := by
  have hchain : Linked (pgNextOf s.heap) s.fifoPgn ((waiting.map Prod.fst).reverse ++ [e.1]) := by
    rw [← List.reverse_cons, ← List.map_cons]
    exact h.chain
  obtain ⟨last, hlast, hpgn⟩ := Option.map_eq_some_iff.mp (h.page e (List.mem_cons_self ..))
  cases hp : s.fifoPgn with
  | none =>
    rw [hp, linked_none] at hchain
    simp at hchain
  | some pg =>
    have hwalk := walkLast_linked (hp ▸ hchain) (by simpa using hfuel) none
    cases waiting with
    | nil =>
      -- the only node: `fifo_pgn` itself is cleared
      refine ⟨{ s with fifoPgn := none }, ?_, ⟨.nil, ?_, h.unused⟩, rfl⟩
      · rw [findVictimPageNodes, hp]
        simp only [List.map_nil, List.reverse_nil, List.getLast?_nil, Option.or_none] at hwalk
        simp [hwalk, hlast, hpgn]
      · intro e' he'
        cases he'
    | cons e₁ waiting =>
      obtain ⟨node, hnode, -⟩ := Option.map_eq_some_iff.mp
        (h.page e₁ (List.mem_cons_of_mem _ (List.mem_cons_self ..)))
      refine ⟨_, ?_, h.cut hnode ?_, rfl⟩
      · rw [findVictimPageNodes, hp]
        simp only [List.map_cons, List.reverse_cons, List.getLast?_concat, Option.some_or] at hwalk
        simp [hwalk, hlast, hpgn, hnode]
      · simp only [List.map_cons, List.reverse_cons, List.append_assoc] at hchain ⊢
        exact hchain.dropLast

end Ops

/-! ### Any order of operations -/

section Run
variable {addr : ℕ → ℕ}

theorem enlisted_enlist (i : ℕ) (pgn : ℤ) (ops : List PageOp) :
    enlisted addr i (.enlist pgn :: ops) = (addr i, pgn) :: enlisted addr (i + 1) ops := rfl

theorem enlisted_victim (i : ℕ) (ops : List PageOp) :
    enlisted addr i (.victim :: ops) = enlisted addr i ops := rfl

theorem enlisted_pages (i : ℕ) (ops : List PageOp) :
    (enlisted addr i ops).map Prod.snd = pagesEnlisted ops := by
  rw [enlisted, List.map_map]
  exact List.zipIdx_map_fst i (pagesEnlisted ops)

/-- No two entries share a node. -/
theorem enlisted_nodup (hinj : Function.Injective addr) (i : ℕ) (ops : List PageOp) :
    ((enlisted addr i ops).map Prod.fst).Nodup := by
  have hnodes : (enlisted addr i ops).map Prod.fst =
      (List.range' i (pagesEnlisted ops).length).map addr := by
    rw [enlisted, List.map_map, ← List.zipIdx_map_snd i (pagesEnlisted ops), List.map_map]
    rfl
  rw [hnodes]
  exact (List.nodup_range' ..).map hinj

/-- What waited and what is enlisted is returned in that order; the rest still waits. -/
theorem Waits.run (hinj : Function.Injective addr) {s : PageNodes} {waiting : List (ℕ × ℤ)}
    (h : Waits addr s waiting) {fuel : ℕ} (ops : List PageOp)
    (hfuel : waiting.length + ops.length ≤ fuel) :
    ∃ results s' left, pageRun addr fuel s ops = some (results, s') ∧ Waits addr s' left ∧
      left.length ≤ fuel ∧
      waiting ++ enlisted addr s.mallocs ops = results.reduceOption ++ left := by
  induction ops generalizing s waiting with
  | nil =>
    refine ⟨[], s, waiting, rfl, h, hfuel, ?_⟩
    simp [enlisted, pagesEnlisted, List.reduceOption]
  | cons op ops ih =>
    rw [List.length_cons] at hfuel
    cases op with
    | enlist pgn =>
      have hlen : (waiting ++ [(addr s.mallocs, pgn)]).length + ops.length ≤ fuel := by
        rw [List.length_append, List.length_singleton]
        omega
      obtain ⟨results, s', left, hrun, hleft, hbound, heq⟩ := ih (h.enlist hinj pgn) hlen
      refine ⟨results, s', left, hrun, hleft, hbound, ?_⟩
      rw [enlisted_enlist, ← heq, List.append_assoc]
      rfl
    | victim =>
      rw [enlisted_victim]
      cases waiting with
      | nil =>
        obtain ⟨results, s', left, hrun, hleft, hbound, heq⟩ := ih h (by omega)
        refine ⟨none :: results, s', left, ?_, hleft, hbound, ?_⟩
        · simp [pageRun, h.null, hrun]
        · rw [List.reduceOption_cons_of_none, heq]
      | cons e waiting =>
        rw [List.length_cons] at hfuel
        have hlt : waiting.length < fuel := by omega
        obtain ⟨s₁, hvictim, h₁, hmallocs⟩ := h.victim hlt
        obtain ⟨results, s', left, hrun, hleft, hbound, heq⟩ := ih h₁ (by omega)
        refine ⟨some e :: results, s', left, ?_, hleft, hbound, ?_⟩
        · simp [pageRun, hvictim, hrun]
        · rw [hmallocs] at heq
          rw [List.reduceOption_cons_of_some, List.cons_append, List.cons_append, heq]

theorem waits_empty {heap : PgnHeap} (malloc : PgnMalloc heap) :
    Waits malloc.addr ⟨heap, none, 0⟩ [] where
  chain := .nil
  page _ he := absurd he List.not_mem_nil
  unused i _ := malloc.unused i

/-- From an empty list: a prefix of what was enlisted comes back, each entry once, and the
next `find_victim_page` fails just when all of it has, changing nothing. -/
theorem pageList_fifo {heap : PgnHeap} (malloc : PgnMalloc heap) (ops : List PageOp) {fuel : ℕ}
    (hfuel : ops.length ≤ fuel) :
    ∃ results s, pageRun malloc.addr fuel ⟨heap, none, 0⟩ ops = some (results, s) ∧
      results.reduceOption.map Prod.snd <+: pagesEnlisted ops ∧
      results.reduceOption <+: enlisted malloc.addr 0 ops ∧
      (results.reduceOption.map Prod.fst).Nodup ∧
      ∃ r s', findVictimPageNodes fuel s = some (r, s') ∧
        (r = none ↔ results.reduceOption = enlisted malloc.addr 0 ops) ∧
        (r = none → s' = s) := by
  obtain ⟨results, s, left, hrun, hleft, hbound, heq⟩ :=
    (waits_empty malloc).run malloc.injective ops (by simpa using hfuel)
  have hpre : results.reduceOption <+: enlisted malloc.addr 0 ops := ⟨left, heq.symm⟩
  have hpages := hpre.map Prod.snd
  rw [enlisted_pages] at hpages
  have hnodup := (hpre.map Prod.fst).sublist.nodup (enlisted_nodup malloc.injective 0 ops)
  refine ⟨results, s, hrun, hpages, hpre, hnodup, ?_⟩
  have hall : results.reduceOption = enlisted malloc.addr 0 ops ↔ left = [] := by
    rw [show enlisted malloc.addr 0 ops = results.reduceOption ++ left from heq]
    exact List.self_eq_append_right
  cases left with
  | nil =>
    exact ⟨none, s, hleft.null fuel, iff_of_true rfl (hall.mpr rfl), fun _ => rfl⟩
  | cons e left =>
    obtain ⟨s', hvictim, -, -⟩ := hleft.victim hbound
    refine ⟨some e, s', hvictim, iff_of_false (Option.some_ne_none e) ?_, ?_⟩
    · intro h
      cases hall.mp h
    · intro h
      cases h

/-- One page enlisted twice around a failing call. -/
theorem pageList_fifo_twice : ∃ results s,
    pageRun id 5 ⟨fun _ => none, none, 0⟩ [.enlist 7, .victim, .victim, .enlist 7, .enlist 9] =
      some (results, s) ∧
    results.reduceOption.map Prod.snd <+: [7, 7, 9] ∧
    results.reduceOption <+: [(0, 7), (1, 7), (2, 9)] ∧
    (results.reduceOption.map Prod.fst).Nodup ∧
    ∃ r s', findVictimPageNodes 5 s = some (r, s') ∧
      (r = none ↔ results.reduceOption = [(0, 7), (1, 7), (2, 9)]) ∧ (r = none → s' = s) :=
  pageList_fifo ⟨id, Function.injective_id, fun _ => rfl⟩
    [.enlist 7, .victim, .victim, .enlist 7, .enlist 9] le_rfl

example : (pageRun id 5 ⟨fun _ => none, none, 0⟩
    [.enlist 7, .victim, .victim, .enlist 7, .enlist 9, .victim]).map Prod.fst =
      some [some (0, 7), none, some (1, 7)] := by decide

end Run

/-! ### The pages of `Mm` -/

/-- The nodes hold the list of pages, newest first. -/
def HoldsPages (addr : ℕ → ℕ) (s : PageNodes) (fifoPgn : List ℕ) : Prop :=
  ∃ waiting, Waits addr s waiting ∧ waiting.map Prod.snd = fifoPgn.reverse.map Nat.cast

section Pages
variable {addr : ℕ → ℕ} {s : PageNodes} {mm : Mm}

theorem HoldsPages.enlist (h : HoldsPages addr s mm.fifoPgn) (hinj : Function.Injective addr)
    (pgn : ℕ) : HoldsPages addr (enlistPgnNodes addr s pgn) (enlistPgnNode mm.fifoPgn pgn) := by
  obtain ⟨waiting, hwaits, hpages⟩ := h
  refine ⟨_, hwaits.enlist hinj pgn, ?_⟩
  rw [enlistPgnNode, List.reverse_cons, List.map_append, List.map_append, hpages]
  rfl

theorem HoldsPages.victim (h : HoldsPages addr s mm.fifoPgn) {fuel : ℕ}
    (hfuel : mm.fifoPgn.length ≤ fuel) :
    ∃ r s', findVictimPageNodes fuel s = some (r, s') ∧
      r.map Prod.snd = (findVictimPage mm).map (fun v => (v.1 : ℤ)) ∧
      HoldsPages addr s' (((findVictimPage mm).map Prod.snd).getD mm).fifoPgn := by
  obtain ⟨waiting, hwaits, hpages⟩ := h
  have hlen := congrArg List.length hpages
  rw [List.length_map, List.length_map, List.length_reverse] at hlen
  cases List.eq_nil_or_concat mm.fifoPgn with
  | inl hnil =>
    have hw : waiting = [] := by
      apply List.eq_nil_of_length_eq_zero
      rw [hlen, hnil, List.length_nil]
    subst hw
    have hnone : findVictimPage mm = none := by simp [findVictimPage, hnil]
    refine ⟨none, s, hwaits.null fuel, by rw [hnone]; rfl, ?_⟩
    rw [hnone]
    exact ⟨[], hwaits, hpages⟩
  | inr hlast =>
    obtain ⟨newer, oldest, hmm⟩ := hlast
    have hvictim : findVictimPage mm = some (oldest, { mm with fifoPgn := newer }) := by
      simp [findVictimPage, hmm]
    rw [hmm, List.concat_eq_append, List.reverse_append] at hpages
    cases waiting with
    | nil => simp at hpages
    | cons e waiting =>
      obtain ⟨he, hrest⟩ := List.cons.inj hpages
      rw [List.length_cons] at hlen
      have hlt : waiting.length < fuel := by omega
      obtain ⟨s', hrun, hwaits', -⟩ := hwaits.victim hlt
      refine ⟨some e, s', hrun, ?_, ?_⟩
      · rw [hvictim, Option.map_some, he]
        rfl
      · rw [hvictim]
        exact ⟨waiting, hwaits', hrest⟩

end Pages

end OsSim.Mem
