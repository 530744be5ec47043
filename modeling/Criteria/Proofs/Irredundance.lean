import Criteria.Proofs.Irreducible.Pruning
import Criteria.Proofs.NormalForm
import Criteria.Proofs.Reachability
import Criteria.Proofs.Representation

/-!
# What is left has nothing to spare

**Theorem (`Session.Reached.pruning_irreducible`).** In what a node is pruned to nothing that is
known at a position tells of what stands there, no two members of one parent call for a change, and
pruning once more changes neither node nor forest.

**Theorem (`Session.Reached.simplification_irredundant`).** After a simplification no two members of
one parent call for a change, except that a root which is an AND of leaves may hold
`x IS NOT UNKNOWN` next to leaves that require `x`: an AND of leaves is what is left when
multiplying out ends with a single term, and this is not pruned again.
-/

namespace Criteria

/-! ## Pruning -/

namespace Pass

variable {v : Vocabulary} {s : Store} {w : Work} {n : Node}

/-- What a node is pruned to without assumptions is irreducible, also if it is a constant. -/
theorem ensures_prune_irreducible (hn : w.store.ValidNode v n) :
    (Work.growth v).Ensures (prune n) w fun n' w' =>
      w'.store.ValidNode v n' ∧ w'.store.Irreducible [] n' := by
  refine .assuming fun hw => ?_
  have reduces : (growing v).Ensures (prune n) w _ :=
    (reduces_pruneWithin (Store.heft_lt_effort hw hn) hn (Nat.le_refl _)).of_run_eq rfl
  have means : Store.Means v (fun _ => none) True w.store n _ := .of_valid hn
  refine ((keeps_prune means).and reduces hw).mono fun n' w' _ _ h => ?_
  exact ⟨h.2.valid, h.2.final.elim .of_isConstant id⟩

theorem still_prune (hs : s.Valid v) (hn : s.ValidNode v n) (h : s.Irreducible [] n) :
    (Work.still s).Ensures (prune n) w fun n' _ => n' = n :=
  (spares_pruneWithin hs (w.store.effort n) hn h).of_run_eq rfl

end Pass

namespace Session

variable {x : Session} {n r : Node} {budget budget' : Budget} {f : Forest}

/-- At each position in what a node is pruned to, what is known there neither implies nor
contradicts the node at the position; what the members of a combined node give to each other is
there, and no two of them call for a change. Pruning it again gives the node itself and the forest
as it is, unless the budget does not last. -/
theorem Reached.pruning_irreducible (h : x.Reached) (hn : x.Usable n)
    (run : Forest.run (Pass.prune n) (x.forest, budget) = .ok r (f, budget')) :
    (∀ m known, f.store.Position r [] m known →
      (∀ a ∈ known, f.store.implies a m = .ok false ∧ f.store.contradicts a m = .ok false) ∧
      ∀ k, m.connective? = some k → ∃ l, f.store.list? m.number = some l ∧
        (l.Pairwise fun a b => f.store.advise k a b = .ok .retainBoth) ∧
        ∀ front c back, l = front ++ c :: back → ∃ as, f.store.Premises k (front ++ back) as) ∧
    ∀ budget,
      (∃ used, Forest.run (Pass.prune r) (f, budget) = .ok r (f, ⟨budget.limit, used⟩)) ∨
      budget.limit ≠ .unlimited ∧ ∃ o used,
        Forest.run (Pass.prune r) (f, budget) = .error (.overrun o) (f, ⟨budget.limit, used⟩) := by
  have sound := h.sound
  have pruned : (Work.growth x.forest.vocabulary).Ensures (Pass.prune n)
      ⟨x.forest.store, budget⟩ _ := Pass.ensures_prune_irreducible (sound.validNode hn)
  obtain ⟨hf, -, same, hr, irreducible⟩ := (Forest.ensures_run pruned).of_ok sound.forest run
  have hs : f.store.Valid x.forest.vocabulary := same ▸ hf.store
  refine ⟨fun m known pos => ?_, fun budget => ?_⟩
  · have here := irreducible.of_position pos
    refine ⟨here.silent, fun k hk => ?_⟩
    obtain ⟨l, hl, -⟩ := (pos.validNode hs hr).list? hk
    refine ⟨l, hl, here.retained hk hl, ?_⟩
    rintro front c back rfl
    exact Store.exists_premises_of_siblings (here.standing hk hl).premised
  · exact Forest.run_of_still (Pass.composed_prune r) (Pass.still_prune hs hr irreducible)

end Session

namespace Sample

/-- The leaf `a > x`. -/
def greaterLeaf : Leaf := ⟨false, "a", .greaterThan, some (.value "x")⟩

/-- The leaf `a CONTAINS x`. -/
def containingLeaf : Leaf := ⟨false, "a", .contains, some (.value "x")⟩

/-- The node of `a > x`. -/
def greater : Node := .leaf false .greaterThan false 0 0

/-- The node of `a CONTAINS x`. -/
def containing : Node := .leaf false .contains false 0 0

/-- The store with the list of the two. -/
def loose : Store :=
  (Store.empty Store.defaultThreshold).push [greater, containing]
    (Store.find?_eq_none (by decide))

/-- The session in which the AND of the two was built and made the root. -/
def looseSession : Session := ⟨⟨.ofVocabulary vocabulary, loose, [both]⟩, [], [both]⟩

theorem codes_greater : vocabulary.Codes greaterLeaf greater := .value (by decide) rfl rfl

theorem codes_containing : vocabulary.Codes containingLeaf containing := .value (by decide) rfl rfl

theorem reached_loose : looseSession.Reached := by
  have joined : (Store.empty Store.defaultThreshold).combine .and [greater, containing] =
      .ok (both, loose) := Store.combine_of_new (by rfl) (by decide) (by decide) (by decide)
  exact reached_of_built (Vocabulary.encodes_iff.2 ⟨_, codes_greater⟩)
    (Vocabulary.encodes_iff.2 ⟨_, codes_containing⟩) joined rfl

theorem usable_loose : looseSession.Usable both :=
  .combined (by decide) rfl (.inr (.inl (List.mem_singleton_self _)))

/-- Neither of the two tells of the other. -/
theorem irreducible_loose : loose.Irreducible [] both :=
  .of_leaves rfl rfl (by decide) (by decide) (by decide)

/-- `a > x AND a CONTAINS x` is pruned to itself: neither member implies or contradicts the
other. -/
theorem loose_pruned : ∃ used,
    Forest.run (Pass.prune both) (looseSession.forest, .fresh .unlimited) =
      .ok both (looseSession.forest, ⟨.unlimited, used⟩) ∧
    loose.implies containing greater = .ok false ∧ loose.contradicts containing greater = .ok false ∧
    loose.advise .and greater containing = .ok .retainBoth := by
  have sound := reached_loose.sound
  have still := Pass.still_prune (w := ⟨loose, .fresh .unlimited⟩) sound.forest.store
    (sound.validNode usable_loose) irreducible_loose
  obtain ⟨used, run⟩ := (Forest.run_of_still (f := looseSession.forest)
    (Pass.composed_prune both) still).resolve_right fun h => h.1 rfl
  have irreducible := (reached_loose.pruning_irreducible usable_loose run).1
  have list : loose.list? both.number = some ([] ++ greater :: [containing]) := rfl
  have position : loose.Position both [] greater ([] ++ [containing]) :=
    .member (k := .and) .root rfl list rfl
  obtain ⟨l, hl, retained, -⟩ := (irreducible both [] .root).2 .and rfl
  cases hl
  have silent := (irreducible greater _ position).1 containing (List.mem_singleton_self _)
  have advice := (List.pairwise_cons.1 retained).1 containing (List.mem_singleton_self _)
  exact ⟨used, run, silent.1, silent.2, advice⟩

end Sample

/-! ## Factoring -/

namespace Store

variable {v : Vocabulary} {s t : Store} {n : Node}

/-- What simplification leaves: an irreducible node, a leaf or an AND of leaves. -/
structure Simplified (v : Vocabulary) (s : Store) (n : Node) : Prop where
  valid : s.ValidNode v n
  final : s.Irreducible [] n ∨ s.Fits [.and] n

theorem Simplified.mono (h : s.Simplified v n) (hs : s.Valid v) (le : s.Extends t) :
    t.Simplified v n :=
  ⟨h.valid.mono le, h.final.imp (·.mono hs le h.valid) (·.mono le)⟩

/-- A combined node of the form of terms is an AND of leaves. -/
theorem Fits.of_and {k : Connective} {l : List Node} (h : s.Fits [.and] n)
    (hk : n.connective? = some k) (hl : s.list? n.number = some l) :
    k = .and ∧ ∀ m ∈ l, m.isLeaf = true := by
  obtain ⟨ks, sub, l', hl', each⟩ := hasForm_of_connective? (h.hasForm hk) hk
  cases hl.symm.trans hl'
  rcases List.suffix_cons_iff.1 sub with eq | sub
  · cases eq
    exact ⟨rfl, each⟩
  · cases List.suffix_nil.1 sub

/-- ANDs of leaves, and the leaves of each. -/
def Terms (s : Store) : List Node → List (List Node) → Prop :=
  List.Forall₂ fun m l => m.connective? = some .and ∧ s.list? m.number = some l ∧
    ∀ x ∈ l, x.isLeaf = true

namespace Terms

variable {l : List Node} {ls : List (List Node)}

theorem andLists_eq (h : s.Terms l ls) : Pass.andLists s l = .ok ls := by
  induction h with
  | nil => rfl
  | cons head _ ih =>
    obtain ⟨hk, hl, -⟩ := head
    rw [Pass.andLists, if_pos (Node.isAnd_iff.2 hk), members_eq_ok hk hl, ih]
    rfl

theorem hasForm (h : s.Terms l ls) : ∀ m ∈ l, s.hasForm [.and] m = true := by
  intro m hm
  obtain ⟨l', -, hk, hl, leaves⟩ := exists_of_mem_forall₂ h.flip hm
  exact hasForm_cons_iff.2 (.inr ⟨hk, l', hl, leaves⟩)

/-- Each leaf of the second list is implied by one of the first. -/
def covers (l l' : List Node) : Bool :=
  l'.all fun m' => l.any fun m => m = m' || m'.isKnown && m.requires m'.argument

/-- ANDs none of which is covered by another. -/
theorem pairwise_apart (h : s.Terms l ls) (nodup : l.Nodup)
    (apart : ls.Pairwise fun l l' => covers l l' = false ∧ covers l' l = false) :
    l.Pairwise fun a b => a ≠ b ∧ s.implies a b = .ok false ∧ s.implies b a = .ok false := by
  induction h with
  | nil => exact .nil
  | cons head tail ih =>
    rw [List.nodup_cons] at nodup
    rw [List.pairwise_cons] at apart ⊢
    refine ⟨fun b hb => ?_, ih nodup.2 apart.2⟩
    obtain ⟨l', hl', hk', list', leaves'⟩ := exists_of_mem_forall₂ tail.flip hb
    obtain ⟨hk, list, leaves⟩ := head
    obtain ⟨forth, back⟩ := apart.1 l' hl'
    have ne := ne_of_mem_of_not_mem hb nodup.1
    refine ⟨ne.symm, ?_, ?_⟩
    · rw [implies_of_leaves hk list leaves hk' list' leaves' ne.symm]
      exact congrArg _ forth
    · rw [implies_of_leaves hk' list' leaves' hk list leaves ne]
      exact congrArg _ back

/-- The OR of such ANDs is irreducible if no leaf of one of them tells of another one. -/
theorem irreducible (h : s.Terms l ls) {n : Node} (hk : n.connective? = some .or)
    (hl : s.list? n.number = some l) (nodup : l.Nodup)
    (apart : ls.Pairwise fun l l' => covers l l' = false ∧ covers l' l = false)
    (loose : ∀ l' ∈ ls, l'.Nodup ∧ ∀ a ∈ l', ∀ b ∈ l', a ≠ b →
      (b.isKnown && a.requires b.argument) = false ∧ a.conflicts b = false) :
    s.Irreducible [] n := by
  refine .of_alternatives hk hl (fun m hm => ?_) (h.pairwise_apart nodup apart)
  obtain ⟨l', hl', isAnd, list, leaves⟩ := exists_of_mem_forall₂ h.flip hm
  obtain ⟨nodup', apart'⟩ := loose l' hl'
  exact ⟨Node.isCombined_of_connective? isAnd, .of_leaves isAnd list nodup' leaves apart'⟩

end Terms

end Store

namespace Pass

open Store (Fits Simplified)

variable {v : Vocabulary} {s : Store} {w : Work} {n : Node} {fuel cleanup : Nat}

/-- There is nothing to factor in an AND if there is nothing to factor in its members. -/
theorem still_factorWithin_of_kept {l : List Node} (hs : s.Valid v) (hn : s.ValidNode v n)
    (hk : n.connective? = some .and) (hl : s.list? n.number = some l)
    (kept : ∀ m ∈ l, ∀ w, (Work.still s).Ensures (factorWithin fuel m) w fun m' _ => m' = m) :
    (Work.still s).Ensures (factorWithin (fuel + 1) n) w fun n' _ => n' = n := by
  rw [factorWithin, hk]
  refine still_check.bind fun _ _ _ _ _ => (still_members hk hl).bind fun ms _ _ _ eq => ?_
  subst eq
  refine (still_mapM kept).bind fun ms' _ _ _ eq => ?_
  subst eq
  exact (still_combine hk hl hs hn).bind fun n' _ _ _ eq => .pure fun _ => eq

/-- There is nothing to factor in an AND of leaves. -/
theorem still_factorWithin (hs : s.Valid v) (hn : s.ValidNode v n) (h : s.Fits [.and] n) :
    (Work.still s).Ensures (factorWithin fuel n) w fun n' _ => n' = n := by
  induction fuel generalizing w n with
  | zero => exact .pure fun _ => rfl
  | succ fuel ih =>
    cases hk : n.connective? with
    | none =>
      rw [factorWithin, hk]
      exact still_check.bind fun _ _ _ _ _ => .pure fun _ => rfl
    | some k =>
      obtain ⟨l, hl, -⟩ := hn.list? hk
      obtain ⟨rfl, leaves⟩ := h.of_and hk hl
      refine still_factorWithin_of_kept hs hn hk hl fun m hm w => ?_
      exact ih (hs.members _ _ hl m hm) (.inr (Store.hasForm_of_isLeaf (leaves m hm) _))

section Apart

variable {l : List Node} {ls : List (List Node)} {rounds : Nat} {p : Node → Pass Node}
  {t : Store} {m : Node}

theorem still_overlapsWith (apart : ∀ l' ∈ ls, Ascending.intersect l l' = []) :
    (Work.still s).Ensures (overlapsWith l ls) w fun out _ => out = [] := by
  induction ls generalizing w with
  | nil => exact .pure fun _ => rfl
  | cons other rest ih =>
    rw [List.forall_mem_cons] at apart
    rw [overlapsWith]
    refine still_check.bind fun _ _ _ _ _ => (ih apart.2).bind fun out _ _ _ eq => ?_
    rw [apart.1, eq]
    exact .pure fun _ => rfl

theorem still_overlaps (apart : ls.Pairwise fun l l' => Ascending.intersect l l' = []) :
    (Work.still s).Ensures (overlaps ls) w fun out _ => out = [] := by
  induction ls generalizing w with
  | nil => exact .pure fun _ => rfl
  | cons l rest ih =>
    rw [List.pairwise_cons] at apart
    rw [overlaps]
    refine (still_overlapsWith apart.1).bind fun front _ _ _ eq => ?_
    refine (ih apart.2).bind fun back _ _ _ eq' => .pure fun _ => ?_
    rw [eq, eq', List.append_nil]

/-- Nothing is taken out of an OR of ANDs no two of which share a member. -/
theorem still_factorAll (hk : n.connective? = some .or) (hl : s.list? n.number = some l)
    (ands : andLists s l = .ok ls)
    (apart : ls.Pairwise fun l l' => Ascending.intersect l l' = []) :
    (Work.still s).Ensures (factorAll p rounds n) w fun n' _ => n' = n := by
  cases rounds with
  | zero => exact .pure fun _ => rfl
  | succ rounds =>
    have none : ∀ w, (Work.still s).Ensures (bestOverlap l) w fun out _ => out = none := fun w => by
      refine (still_read ands).bind fun _ _ _ _ eq => ?_
      rw [eq]
      refine (still_overlaps apart).bind fun out _ _ _ eq => ?_
      rw [eq]
      exact .pure fun _ => rfl
    rw [factorAll, if_neg (by simp [Node.isOr_iff.2 hk])]
    refine still_check.bind fun _ _ _ _ _ => (still_members hk hl).bind fun ms _ _ _ eq => ?_
    rw [eq]
    refine (none _).bind fun out _ _ _ eq => ?_
    rw [eq]
    exact .pure fun _ => rfl

/-- So all that factoring does with it is to prune it, if there is nothing to factor in its
members. -/
theorem becomes_factorWithin (hs : s.Valid v) (hn : s.ValidNode v n)
    (hk : n.connective? = some .or) (hl : s.list? n.number = some l)
    (kept : ∀ m ∈ l, ∀ w, (Work.still s).Ensures (factorWithin fuel m) w fun m' _ => m' = m)
    (ands : andLists s l = .ok ls) (apart : ls.Pairwise fun l l' => Ascending.intersect l l' = [])
    (pruned : Becomes (prune n) s m t) : Becomes (factorWithin (fuel + 1) n) s m t := by
  rw [factorWithin, hk]
  refine Becomes.check.bind ((Becomes.of_still fun _ => still_members hk hl).bind ?_)
  refine (Becomes.of_still fun _ => still_mapM kept).bind ?_
  refine (Becomes.of_still fun _ => still_combine hk hl hs hn).bind ?_
  exact (Becomes.of_still fun _ => still_factorAll hk hl ands apart).bind pruned

/-- So factoring leaves it alone if it is irreducible and the ANDs are of leaves. -/
theorem still_factorWithin_of_apart (hs : s.Valid v) (hn : s.ValidNode v n)
    (hk : n.connective? = some .or) (hl : s.list? n.number = some l)
    (terms : s.Terms l ls) (apart : ls.Pairwise fun l l' => Ascending.intersect l l' = [])
    (h : s.Irreducible [] n) :
    (Work.still s).Ensures (factorWithin fuel n) w fun n' _ => n' = n := by
  cases fuel with
  | zero => exact .pure fun _ => rfl
  | succ fuel =>
    rw [factorWithin, hk]
    refine still_check.bind fun _ _ _ _ _ => (still_members hk hl).bind fun ms _ _ _ eq => ?_
    subst eq
    have kept : ∀ m ∈ ms, ∀ w, (Work.still s).Ensures (factorWithin fuel m) w
        fun m' _ => m' = m := fun m hm w =>
      still_factorWithin hs (hs.members _ _ hl m hm) (.inr (terms.hasForm m hm))
    refine (still_mapM kept).bind fun ms' _ _ _ eq => ?_
    subst eq
    refine (still_combine hk hl hs hn).bind fun n' _ _ _ eq => ?_
    rw [eq]
    refine (still_factorAll hk hl terms.andLists_eq apart).bind fun n' _ _ _ eq => ?_
    rw [eq]
    exact still_prune hs hn h

/-- A node that is pruned to such an OR is simplified to it. -/
theorem becomes_simplify (pruned : Becomes (prune n) s m t) (ht : t.Valid v) (hm : t.ValidNode v m)
    (hk : m.connective? = some .or) (hl : t.list? m.number = some l) (terms : t.Terms l ls)
    (apart : ls.Pairwise fun l l' => Ascending.intersect l l' = []) (h : t.Irreducible [] m) :
    Becomes (simplify cleanup n) s m t := by
  have form : t.Fits orOverAnd m :=
    .inr (Store.hasForm_cons_iff.2 (.inr ⟨hk, l, hl, terms.hasForm⟩))
  refine pruned.bind (Becomes.bind (.of_still fun _ => still_distribute ht hm form) ?_)
  have factored : ∀ fuel w, (Work.still t).Ensures (factorWithin fuel m) w fun n' _ => n' = m :=
    fun _ _ => still_factorWithin_of_apart ht hm hk hl terms apart h
  exact .of_still fun w => (factored (w.store.effort m) w).of_run_eq rfl

end Apart

/-- A node of the OR-of-AND form is factored to an irreducible one, unless it is no OR. -/
theorem ensures_simplified_factorWithin (hn : w.store.ValidNode v n)
    (form : w.store.Fits orOverAnd n) (rounds : 0 < fuel) :
    (Work.growth v).Ensures (factorWithin fuel n) w fun n' w' => w'.store.Simplified v n' := by
  refine .assuming fun hw => ?_
  have means : Store.Means v (fun _ => none) True w.store n _ := .of_valid hn
  by_cases isOr : n.isOr = true
  · obtain ⟨fuel, rfl⟩ := Nat.exists_eq_succ_of_ne_zero rounds.ne'
    have hk := Node.isOr_iff.1 isOr
    rw [factorWithin, hk]
    refine ensures_check.bind fun _ w₁ _ le₁ _ => ?_
    have means := Store.Means.stable hw le₁ means
    refine (ensures_members means hk).bind fun ms w₂ _ _ hms => ?_
    have keeps : Keeps v (fun _ => none) (factorWithin fuel) := keeps_factorWithin fuel
    refine (keeps.ensures_mapM hms).bind fun ms' w₃ _ _ hms' => ?_
    refine (ensures_combine hms').bind fun n₁ w₄ _ _ h₁ => ?_
    refine (ensures_factorAll keeps fuel h₁).bind fun n₂ w₅ _ _ h₂ => ?_
    exact (ensures_prune_irreducible h₂.valid).mono fun n' _ _ _ h => ⟨h.1, .inl h.2⟩
  · have term := fits_of_not_isOr form isOr
    refine ((keeps_factorWithin fuel means).and (still_factorWithin hw hn term) rfl).mono
      fun n' w' _ le h => ?_
    obtain rfl := h.2
    exact ⟨hn.mono le, .inr (term.mono le)⟩

/-- An AND of leaves that is irreducible is left alone by all passes. -/
theorem still_simplify (hs : s.Valid v) (hn : s.ValidNode v n) (h : s.Irreducible [] n)
    (term : s.Fits [.and] n) :
    (Work.still s).Ensures (simplify cleanup n) w fun n' _ => n' = n := by
  refine (still_prune hs hn h).bind fun n₁ _ _ _ eq => ?_
  rw [eq]
  refine (still_distribute hs hn (.orOverAnd term)).bind fun n₂ w₂ _ _ eq => ?_
  rw [eq]
  have factored : ∀ fuel w, (Work.still s).Ensures (factorWithin fuel n) w fun n' _ => n' = n :=
    fun _ _ => still_factorWithin hs hn term
  exact (factored (w₂.store.effort n) w₂).of_run_eq rfl

theorem ensures_simplified_simplify (hn : w.store.ValidNode v n) :
    (Work.growth v).Ensures (simplify cleanup n) w fun n' w' => w'.store.Simplified v n' := by
  have means : ∀ {s : Store} {n : Node}, s.ValidNode v n →
      Store.Means v (fun _ => none) True s n _ := fun hn => .of_valid hn
  refine (keeps_prune (means hn)).bind fun n₁ w₁ hw₁ _ h₁ => ?_
  refine ((keeps_distribute cleanup h₁).and (ensures_fits_distribute hw₁ h₁.valid) trivial).bind
    fun n₂ w₂ hw₂ _ ⟨h₂, form⟩ => ?_
  have deep := Nat.zero_lt_of_lt (level_lt_effort (t := w₂.store) hw₂ h₂.valid)
  exact (ensures_simplified_factorWithin h₂.valid form deep).of_run_eq rfl

end Pass

/-! ## Simplification -/

namespace Store

variable {v : Vocabulary} {s : Store} {n a b : Node} {l : List Node}

/-- Of two leaves of an AND, only `x IS NOT UNKNOWN` next to one that requires `x` can go. -/
theorem advise_leaves (codes : ∀ m ∈ l, v.Encodes m) (hc : Consolidated .and l) (ha : a ∈ l)
    (hb : b ∈ l) (ne : a ≠ b) :
    s.advise .and a b = .ok .retainBoth ∨
      (b.isKnown = true ∧ a.requires b.argument = true ∧ s.advise .and a b = .ok .removeRight) ∨
      (a.isKnown = true ∧ b.requires a.argument = true ∧ s.advise .and a b = .ok .removeLeft) := by
  have leaf := (codes a ha).isLeaf
  have leaf' := (codes b hb).isLeaf
  have apart := hc.conflicts_eq_false ha hb leaf leaf'
  rw [advise_and_of_leaves leaf leaf' ne apart, adviseImplied, implies_leaf leaf leaf',
    implies_leaf leaf' leaf]
  simp only [ne, ne.symm, decide_false, Bool.false_or]
  cases forth : b.isKnown && a.requires b.argument <;>
    cases back : a.isKnown && b.requires a.argument
  · exact .inl rfl
  · rw [Bool.and_eq_true] at back
    exact .inr (.inr ⟨back.1, back.2, rfl⟩)
  · rw [Bool.and_eq_true] at forth
    exact .inr (.inl ⟨forth.1, forth.2, rfl⟩)
  · -- Two checks that an argument is known are one.
    rw [Bool.and_eq_true] at forth back
    exact (ne ((codes a ha).eq_of_known (codes b hb) back.1 forth.1 forth.2)).elim

end Store

namespace Forest

variable {f g : Forest} {n : Node} {cleanup : Nat} {budget budget' : Budget}

theorem simplified_roots (hf : f.Valid)
    (h : mapRoots (Pass.simplify cleanup) (f, budget) = .ok () (g, budget')) :
    g.Valid ∧ ∀ n ∈ g.roots, g.store.Simplified g.vocabulary n := by
  obtain ⟨valid, -⟩ := mapRoots_ok (fun _ => Pass.keeps_simplify cleanup) hf h
  refine ⟨valid, fun n hn => ?_⟩
  have each : (Work.growth f.vocabulary).Ensures (f.roots.mapM (Pass.simplify cleanup))
      ⟨f.store, budget⟩ fun ns w =>
        List.Forall₂ (fun _ n' => w.store.Simplified f.vocabulary n') f.roots ns :=
    .mapM (P := fun n w => Work.store w |>.ValidNode f.vocabulary n)
      (fun _ _ _ _ le h => h.mono le) (fun _ _ _ _ hs le h => h.mono hs le)
      (fun _ _ _ hn => Pass.ensures_simplified_simplify hn) hf.roots
  rw [mapRoots_eq] at h
  split at h
  · next run =>
    cases h
    obtain ⟨-, -, same, simplified⟩ := (ensures_run each).of_ok hf run
    obtain ⟨-, -, here⟩ := exists_of_mem_forall₂ simplified hn
    rw [← same] at here
    exact here
  · cases h

/-- Below simplified roots all nodes are irreducible under some assumptions, except for ANDs of
leaves that are roots. -/
theorem irreducible_of_below (roots : ∀ n ∈ g.roots, g.store.Simplified g.vocabulary n)
    (h : g.Below n) : (∃ known, g.store.Irreducible known n) ∨
      g.store.Fits [.and] n ∧ (n ∈ g.roots ∨ n.isLeaf = true) := by
  induction h with
  | root hn => exact (roots _ hn).final.imp (⟨[], ·⟩) (⟨·, .inl hn⟩)
  | @member n m k l below hk hl hm ih =>
    rcases ih with ⟨known, irreducible⟩ | ⟨term, -⟩
    · obtain ⟨front, back, rfl⟩ := List.append_of_mem hm
      have standing := irreducible.standing hk hl
      obtain ⟨as, given⟩ := Store.exists_premises_of_siblings standing.premised
      exact .inl ⟨_, standing.member front m back as rfl given⟩
    · have leaf := (term.of_and hk hl).2 m hm
      exact .inr ⟨.inr (Store.hasForm_of_isLeaf leaf _), .inr leaf⟩

end Forest

namespace Session

variable {x : Session}

/-- In simplified roots no two members of one parent call for a change, except in a root that is an
AND of leaves: there `x IS NOT UNKNOWN` may stand next to a leaf that requires `x`. -/
theorem Reached.simplification_irredundant (h : x.Reached) {cleanup housekeeping : Nat}
    {budget budget' : Budget} {g : Forest}
    (run : Forest.simplify cleanup housekeeping (x.forest, budget) = .ok () (g, budget')) :
    ∀ n k, g.Below n → n.connective? = some k → ∃ l, g.store.list? n.number = some l ∧
      ((l.Pairwise fun a b => g.store.advise k a b = .ok .retainBoth) ∨
        n ∈ g.roots ∧ k = .and ∧ (∀ m ∈ l, m.isLeaf = true) ∧ l.Pairwise fun a b =>
          g.store.advise .and a b = .ok .retainBoth ∨
          (b.isKnown = true ∧ a.requires b.argument = true ∧
            g.store.advise .and a b = .ok .removeRight) ∨
          (a.isKnown = true ∧ b.requires a.argument = true ∧
            g.store.advise .and a b = .ok .removeLeft)) := by
  intro n k below hk
  rw [Forest.simplify_eq] at run
  have swept := h.sound.forest.sweepAbove housekeeping
  obtain ⟨valid, roots⟩ := Forest.simplified_roots swept run
  obtain ⟨l, hl, hc⟩ := (below.validNode valid).list? hk
  refine ⟨l, hl, ?_⟩
  rcases Forest.irreducible_of_below roots below with ⟨known, irreducible⟩ | ⟨term, root⟩
  · exact .inl (irreducible.retained hk hl)
  · obtain ⟨rfl, leaves⟩ := term.of_and hk hl
    have isRoot : n ∈ g.roots := by
      refine root.resolve_right fun leaf => ?_
      rw [Node.connective?_eq_none_iff.2 (Node.not_isCombined_of_isLeaf leaf)] at hk
      cases hk
    have codes : ∀ m ∈ l, g.vocabulary.Encodes m := fun m hm =>
      (valid.store.members _ _ hl m hm).encodes_of_isLeaf (leaves m hm)
    refine .inr ⟨isRoot, rfl, leaves, (Ascending.nodup hc.ascending).imp_of_mem fun ha hb ne => ?_⟩
    exact Store.advise_leaves codes hc ha hb ne

end Session

/-- `a > x AND a CONTAINS x` is simplified to itself. -/
theorem Sample.loose_simplified : ∃ used,
    Forest.simplify 0 1 (looseSession.forest, .fresh .unlimited) =
      .ok () (looseSession.forest, ⟨.unlimited, used⟩) ∧
    ∃ l, loose.list? both.number = some l ∧
      ((l.Pairwise fun a b => loose.advise .and a b = .ok .retainBoth) ∨
        both ∈ [both] ∧ Connective.and = .and ∧ (∀ m ∈ l, m.isLeaf = true) ∧ l.Pairwise fun a b =>
          loose.advise .and a b = .ok .retainBoth ∨
          (b.isKnown = true ∧ a.requires b.argument = true ∧
            loose.advise .and a b = .ok .removeRight) ∨
          (a.isKnown = true ∧ b.requires a.argument = true ∧
            loose.advise .and a b = .ok .removeLeft)) := by
  have sound := reached_loose.sound
  have kept : (looseSession.forest.sweepAbove 1).2 = looseSession.forest :=
    Forest.sweepAbove_of_le (by show loose.live ≤ 1; rw [loose, Store.live_push]; decide)
  have still : (Work.still loose).Ensures ([both].mapM (Pass.simplify 0))
      ⟨loose, .fresh .unlimited⟩ fun ns _ => ns = [both] :=
    Pass.still_mapM fun n hn w => by
      obtain rfl := List.mem_singleton.1 hn
      exact Pass.still_simplify sound.forest.store (sound.validNode usable_loose) irreducible_loose
        (.inr rfl)
  obtain ⟨used, run⟩ := (Forest.run_of_still (f := looseSession.forest)
    (.mapM (Pass.composed_simplify 0) [both]) still).resolve_right fun h => h.1 rfl
  have simplified : Forest.simplify 0 1 (looseSession.forest, .fresh .unlimited) =
      .ok () (looseSession.forest, ⟨.unlimited, used⟩) := by
    rw [Forest.simplify_eq, kept, Forest.mapRoots_eq, show looseSession.forest.roots = [both] from rfl,
      run]
    rfl
  exact ⟨used, simplified, reached_loose.simplification_irredundant simplified both .and
    (.root (List.mem_singleton_self _)) rfl⟩

end Criteria
