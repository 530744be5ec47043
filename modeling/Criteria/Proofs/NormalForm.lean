import Criteria.Proofs.Form
import Criteria.Proofs.Stillness

/-!
# Distribution gives the OR-of-AND form

**Theorem (`Session.Reached.distribution_normal_form`).** A distributed node holds where the node
did and is in OR-of-AND form, whatever the number of terms above which they are pruned; and a node
that is in this form is left as it is.

Terms are ANDs of leaves. Products of terms are terms again, and so is what pruning leaves of an OR
of terms, so multiplying out ends with terms, whose OR has the form. A node of the form is taken
apart and joined again from the same members, and consolidated lists have one node.
-/

namespace Criteria

namespace Store

variable {v : Vocabulary} {s t : Store} {k : Connective} {n : Node} {l : List Node}

/-! ## The form -/

/-- Whether a node is a leaf or an AND of leaves. -/
def isTerm (s : Store) (n : Node) : Bool :=
  n.isLeaf || n.isAnd && (s.list? n.number).any fun l => l.all (·.isLeaf)

/-- Whether a node is in OR-of-AND form: a constant, a leaf, an AND of leaves, or an OR of leaves
and ANDs of leaves. -/
def isOrOfAnd (s : Store) (n : Node) : Bool :=
  n.isConstant || s.isTerm n || n.isOr && (s.list? n.number).any fun l => l.all s.isTerm

theorem fits_orOverAnd_iff : s.Fits Pass.orOverAnd n ↔ s.isOrOfAnd n = true := by
  have term : s.hasForm [.and] = s.isTerm := rfl
  rw [Fits, isOrOfAnd, Bool.or_assoc, Bool.or_eq_true, ← term]
  rfl

theorem Fits.orOverAnd (h : s.Fits [.and] n) : s.Fits Pass.orOverAnd n :=
  h.of_suffix (List.suffix_cons _ _)

end Store

namespace Pass

open Store (Fits)

variable {v : Vocabulary} {w : Work} {k : Connective} {n : Node} {l ors terms : List Node}
  {cleanup : Nat}

/-! ## Joining -/

theorem ensures_fits_and (h : ∀ m ∈ l, w.store.Fits [.and] m) :
    Work.additions.Ensures (combine .and l) w fun n w => w.store.Fits [.and] n :=
  ensures_fits_combine List.not_mem_nil h

theorem ensures_fits_or (h : ∀ m ∈ l, w.store.Fits orOverAnd m) :
    Work.additions.Ensures (combine .or l) w fun n w => w.store.Fits orOverAnd n :=
  ensures_fits_combine (by decide) h

/-- The members of an OR are terms. -/
theorem ensures_terms (h : w.store.Fits orOverAnd n) (hn : n.isOr = true) :
    Work.additions.Ensures (members n) w fun l w => ∀ m ∈ l, w.store.Fits [.and] m :=
  (ensures_fits_members h (by decide) (Node.isOr_iff.1 hn)).mono
    fun ms w' _ _ hms m hm => .inr (hms m hm)

/-! ## Products -/

/-- A node of the OR-of-AND form that is not an OR is a term or a constant. -/
theorem fits_of_not_isOr {s : Store} (h : s.Fits orOverAnd n) (hn : ¬ n.isOr = true) :
    s.Fits [.and] n := h.tail fun hk => hn (Node.isOr_iff.2 hk)

theorem ensures_fits_product {term factor : Node} (ht : w.store.Fits [.and] term)
    (hf : w.store.Fits [.and] factor) :
    Work.additions.Ensures (product term factor) w fun out w =>
      ∀ m ∈ out, w.store.Fits [.and] m := by
  have one : ∀ {w' : Work} {m : Node}, w'.store.Fits [.and] m →
      Work.additions.Ensures (pure (some m) : Pass (Option Node)) w' fun out w =>
        ∀ m ∈ out, w.store.Fits [.and] m := fun h => .pure fun _ m hm => by
    cases hm
    exact h
  unfold product
  split
  · exact one hf
  split
  · exact one ht
  refine ((composed_read _).ensures w).bind fun forth w₁ _ le₁ _ => ?_
  split
  · exact one (ht.mono le₁)
  refine ((composed_read _).ensures w₁).bind fun back w₂ _ le₂ _ => ?_
  have le := Work.additions.trans le₁ le₂
  split
  · exact one (hf.mono le)
  refine ((composed_read _).ensures w₂).bind fun never w₃ _ le₃ _ => ?_
  have le := Work.additions.trans le le₃
  split
  · exact .pure fun _ m hm => by cases hm
  refine (ensures_fits_and fun m hm => ?_).bind fun n w₄ _ _ hn => .pure fun _ m hm => ?_
  · rcases List.mem_pair.1 hm with rfl | rfl
    · exact ht.mono le
    · exact hf.mono le
  · split at hm
    · cases hm
    · cases hm
      exact hn

theorem ensures_fits_productsOf {term : Node} (ht : w.store.Fits [.and] term)
    (hl : ∀ m ∈ l, w.store.Fits [.and] m) :
    Work.additions.Ensures (productsOf term l) w fun out w =>
      ∀ m ∈ out, w.store.Fits [.and] m := by
  induction l generalizing w with
  | nil => exact .pure fun _ => by simp
  | cons factor rest ih =>
    rw [List.forall_mem_cons] at hl
    rw [productsOf]
    refine ensures_check.bind fun _ w₁ _ le₁ _ => ?_
    refine (ensures_fits_product (ht.mono le₁) (hl.1.mono le₁)).bind fun out w₂ _ le₂ hout => ?_
    have le := Work.additions.trans le₁ le₂
    refine (ih (ht.mono le) fun m hm => (hl.2 m hm).mono le).bind fun outs w₃ _ le₃ houts =>
      .pure fun _ m hm => ?_
    rcases List.mem_append.1 hm with hm | hm
    · exact (hout m (Option.mem_toList.1 hm)).mono le₃
    · exact houts m hm

theorem ensures_fits_products {factors : List Node} (hf : ∀ m ∈ factors, w.store.Fits [.and] m)
    (ht : ∀ m ∈ terms, w.store.Fits [.and] m) :
    Work.additions.Ensures (products factors terms) w fun out w =>
      ∀ m ∈ out, w.store.Fits [.and] m := by
  induction terms generalizing w with
  | nil => exact .pure fun _ => by simp
  | cons term rest ih =>
    rw [List.forall_mem_cons] at ht
    rw [products]
    refine (ensures_fits_productsOf ht.1 hf).bind fun out w₁ _ le₁ hout => ?_
    refine (ih (fun m hm => (hf m hm).mono le₁) fun m hm => (ht.2 m hm).mono le₁).bind
      fun outs w₂ _ le₂ houts => .pure fun _ m hm => ?_
    rcases List.mem_append.1 hm with hm | hm
    · exact (hout m hm).mono le₂
    · exact houts m hm

/-- What is left of terms that are pruned together are terms. -/
theorem ensures_fits_cleanUp (ht : ∀ m ∈ terms, w.store.Fits [.and] m) :
    Work.additions.Ensures (cleanUp terms) w fun out w => ∀ m ∈ out, w.store.Fits [.and] m := by
  refine (ensures_fits_or fun m hm => .orOverAnd (ht m hm)).bind fun n w₁ _ _ hn => ?_
  refine (ensures_fits_prune (List.suffix_refl _) hn).bind fun n' w₂ _ _ hn' => ?_
  split
  · next isOr => exact ensures_terms hn' isOr
  · next notOr =>
    refine .pure fun _ m hm => ?_
    split at hm
    · cases hm
    · exact List.mem_singleton.1 hm ▸ fits_of_not_isOr hn' notOr

theorem ensures_fits_multiplyOut (ht : ∀ m ∈ terms, w.store.Fits [.and] m)
    (ho : ∀ n ∈ ors, w.store.Fits orOverAnd n ∧ n.isOr = true) :
    Work.additions.Ensures (multiplyOut cleanup terms ors) w fun out w =>
      ∀ m ∈ out, w.store.Fits [.and] m := by
  induction ors generalizing w terms with
  | nil => exact .pure fun _ => ht
  | cons n rest ih =>
    rw [List.forall_mem_cons] at ho
    rw [multiplyOut]
    refine (ensures_terms ho.1.1 ho.1.2).bind fun ms w₁ _ le₁ hms => ?_
    refine (ensures_fits_products hms fun m hm => (ht m hm).mono le₁).bind
      fun out w₂ _ le₂ hout => ?_
    have le := Work.additions.trans le₁ le₂
    have next : ∀ m ∈ Ascending.ofList out, w₂.store.Fits [.and] m :=
      fun m hm => hout m (Ascending.mem_ofList.1 hm)
    have go : ∀ {w' : Work} {terms : List Node}, w₂.store.Extends w'.store →
        (∀ m ∈ terms, w'.store.Fits [.and] m) →
        Work.additions.Ensures
          (if terms.isEmpty then pure terms else multiplyOut cleanup terms rest) w'
          fun out w => ∀ m ∈ out, w.store.Fits [.and] m := by
      intro w' terms le' ht
      split
      · exact .pure fun _ => ht
      · exact ih ht fun n hn => ⟨(ho.2 n hn).1.mono (Work.additions.trans le le'), (ho.2 n hn).2⟩
    simp only
    split
    · exact (ensures_fits_cleanUp next).bind fun terms w₃ _ le₃ hterms => go le₃ hterms
    · exact go (.refl _) next

/-! ## Nodes -/

theorem ensures_fits_distributeAnd (h : ∀ m ∈ l, w.store.Fits orOverAnd m) :
    Work.additions.Ensures (distributeAnd cleanup l) w fun n w => w.store.Fits orOverAnd n := by
  unfold distributeAnd
  rw [List.partition_eq_filter_filter]
  simp only
  have others : ∀ m ∈ l.filter (not ∘ (·.isOr)), w.store.Fits [.and] m := by
    intro m hm
    obtain ⟨hm, notOr⟩ := List.mem_filter.1 hm
    refine fits_of_not_isOr (h m hm) fun isOr => ?_
    rw [Function.comp, isOr] at notOr
    cases notOr
  refine (ensures_fits_and others).bind fun base w₁ _ le₁ hbase => ?_
  split
  · exact .pure fun _ => .orOverAnd hbase
  have ors : ∀ m ∈ l.filter (·.isOr), w₁.store.Fits orOverAnd m ∧ m.isOr = true := by
    intro m hm
    obtain ⟨hm, isOr⟩ := List.mem_filter.1 hm
    exact ⟨(h m hm).mono le₁, isOr⟩
  refine (ensures_fits_multiplyOut (List.forall_mem_singleton.2 hbase) ors).bind
    fun out w₂ _ _ hout => ?_
  exact ensures_fits_or fun m hm => .orOverAnd (hout m hm)

/-- Nodes of a store that is built on are brought into the form. -/
theorem ensures_fits_distributeWithin {s : Store} {fuel : Nat} (hs : s.Valid v)
    (hn : s.ValidNode v n) (deep : n.level < fuel) (le : s.Extends w.store) :
    Work.additions.Ensures (distributeWithin cleanup fuel n) w fun n' w =>
      w.store.Fits orOverAnd n' := by
  induction fuel generalizing n w with
  | zero => exact (Nat.not_lt_zero _ deep).elim
  | succ fuel ih =>
    rw [distributeWithin]
    refine ensures_check.bind fun _ w₁ _ le₁ _ => ?_
    have le : s.Extends w₁.store := le.trans le₁
    split
    · next hk =>
      refine .pure fun _ => ?_
      cases constant : n.isConstant with
      | true => exact .inl constant
      | false => exact .inr (Store.hasForm_of_isLeaf (hn.encodes constant hk).isLeaf _)
    next k hk =>
    obtain ⟨l, hl, -⟩ := hn.list? hk
    have read : Work.additions.Ensures (members n) w₁ fun ms w => ms = l ∧ s.Extends w.store := by
      refine (ensures_read_eq _).mono fun ms w' _ le' hms => ⟨?_, le.trans le'⟩
      have list := (Store.list?_of_members hms).2
      rw [(le.trans le').list? hl] at list
      exact (Option.some.inj list).symm
    refine read.bind fun ms w₂ _ _ found => ?_
    obtain ⟨rfl, le⟩ := found
    have each : Work.additions.Ensures (ms.mapM (distributeWithin cleanup fuel)) w₂ fun ms' w =>
        List.Forall₂ (fun _ m' => w.store.Fits orOverAnd m') ms ms' := by
      refine .mapM (P := fun _ w => s.Extends (Work.store w)) (fun _ _ _ _ le h => h.trans le)
        (fun _ _ _ _ _ le h => h.mono le) (fun m hm w' le' => ?_) fun _ _ => le
      have lower := Store.level_lt_of_mem hs.layered hk hl hm
      exact ih (hs.members _ _ hl m hm) (Nat.lt_of_lt_of_le lower (Nat.le_of_lt_succ deep)) le'
    refine each.bind fun ms' w₃ _ _ hms' => ?_
    have fits : ∀ m ∈ ms', w₃.store.Fits orOverAnd m := by
      intro m hm
      obtain ⟨-, -, h⟩ := exists_of_mem_forall₂ hms' hm
      exact h
    cases k with
    | and => exact ensures_fits_distributeAnd fits
    | or => exact ensures_fits_or fits

/-- A node nests less deep than the levels that a pass may go down, in whichever store. -/
theorem level_lt_effort {s t : Store} (hs : s.Valid v) (hn : s.ValidNode v n) :
    n.level < t.effort n := by
  have level := hn.level_le
  have size := hs.size_le
  have small : Node.maxNumber + 1 < Store.outOfReach := by decide
  have effort : Store.outOfReach ≤ t.effort n := Nat.le_add_right _ _
  omega

theorem ensures_fits_distribute (hs : w.store.Valid v) (hn : w.store.ValidNode v n) :
    Work.additions.Ensures (distribute cleanup n) w fun n' w => w.store.Fits orOverAnd n' :=
  (ensures_fits_distributeWithin hs hn (level_lt_effort hs hn) (.refl _)).of_run_eq rfl

/-! ## Nodes that have the form -/

/-- A node that has the form is taken apart and joined again. -/
theorem still_distributeWithin {s : Store} {fuel : Nat} (hs : s.Valid v) (hn : s.ValidNode v n)
    (h : s.Fits orOverAnd n) :
    (Work.still s).Ensures (distributeWithin cleanup fuel n) w fun n' _ => n' = n := by
  induction fuel generalizing n w with
  | zero => exact .pure fun _ => rfl
  | succ fuel ih =>
    rw [distributeWithin]
    refine still_check.bind fun _ _ _ _ _ => ?_
    split
    · exact .pure fun _ => rfl
    next k hk =>
    obtain ⟨ks, sub, l, hl, each⟩ := Store.hasForm_of_connective? (h.hasForm hk) hk
    refine (still_members hk hl).bind fun ms _ _ _ eq => ?_
    subst eq
    have kept : ∀ m ∈ ms, ∀ w, (Work.still s).Ensures (distributeWithin cleanup fuel m) w
        fun m' _ => m' = m := fun m hm w =>
      ih (hs.members _ _ hl m hm)
        (.inr (Store.hasForm_of_suffix ((List.suffix_cons k ks).trans sub) (each m hm)))
    refine (still_mapM kept).bind fun ms' _ _ _ eq => ?_
    subst eq
    cases k with
    | or => exact still_combine hk hl hs hn
    | and =>
      -- The members of an AND are leaves, so there is nothing to multiply out.
      have notOr : ∀ m ∈ ms', ¬ m.isOr = true := by
        intro m hm isOr
        obtain rfl := eq_nil_of_suffix_orOverAnd sub
        have leaf : m.isLeaf = true := each m hm
        have comb := Node.isCombined_of_connective? (Node.isOr_iff.1 isOr)
        rw [Node.not_isCombined_of_isLeaf leaf] at comb
        cases comb
      have ors : ms'.filter (·.isOr) = [] := List.filter_eq_nil_iff.2 notOr
      have others : ms'.filter (not ∘ (·.isOr)) = ms' := by
        rw [List.filter_eq_self]
        intro m hm
        simp [notOr m hm]
      unfold distributeAnd
      rw [List.partition_eq_filter_filter, ors, others]
      refine (still_combine hk hl hs hn).bind fun n' _ _ _ eq => ?_
      rw [eq, if_pos (by simp)]
      exact .pure fun _ => rfl

theorem still_distribute {s : Store} (hs : s.Valid v) (hn : s.ValidNode v n)
    (h : s.Fits orOverAnd n) :
    (Work.still s).Ensures (distribute cleanup n) w fun n' _ => n' = n :=
  (still_distributeWithin hs hn h).of_run_eq rfl

end Pass

/-- A distributed node holds where the node did and is in OR-of-AND form. A node that is in this
form is given back and the forest left as it is, unless the budget does not last. -/
theorem Session.Reached.distribution_normal_form {x : Session} (h : x.Reached) {n : Node}
    (hn : x.Usable n) (cleanup : Nat) (budget : Budget) :
    (∀ n' g budget',
      Forest.run (Pass.distribute cleanup n) (x.forest, budget) = .ok n' (g, budget') →
        (∀ r, g.holds r n' = x.forest.holds r n) ∧ g.store.isOrOfAnd n' = true) ∧
    (x.forest.store.isOrOfAnd n = true →
      (∃ used, Forest.run (Pass.distribute cleanup n) (x.forest, budget) =
        .ok n (x.forest, ⟨budget.limit, used⟩)) ∨
      budget.limit ≠ .unlimited ∧ ∃ o g budget',
        Forest.run (Pass.distribute cleanup n) (x.forest, budget) =
          .error (.overrun o) (g, budget')) := by
  have sound := h.sound
  have valid := sound.forest.store
  have hn : x.forest.ValidNode n := sound.validNode hn
  constructor
  · intro n' g budget' run
    constructor
    · intro r
      have means : x.forest.Means r n (x.forest.holds r n) := .of_valid hn
      exact Forest.holds_of_run sound.forest (Pass.keeps_distribute cleanup means) run
    · rw [← Store.fits_orOverAnd_iff]
      have ensures : Work.additions.Ensures (Pass.distribute cleanup n)
          ⟨x.forest.store, budget⟩ _ := Pass.ensures_fits_distribute valid hn
      exact Forest.of_run_eq_ok ensures trivial run
  · intro form
    have still : (Work.still x.forest.store).Ensures (Pass.distribute cleanup n)
        ⟨x.forest.store, budget⟩ fun n' _ => n' = n :=
      Pass.still_distribute valid hn (Store.fits_orOverAnd_iff.2 form)
    refine (Forest.run_of_still (Pass.composed_distribute cleanup n) still).imp_right
      fun ⟨limited, o, used, stopped⟩ => ⟨limited, o, x.forest, _, stopped⟩

namespace Sample

theorem distributeWithin_nested (fuel : Nat) :
    Pass.distributeWithin 0 (fuel + 3) nested ⟨deepStore, .fresh .unlimited⟩ =
      .ok equal ⟨deepStore, ⟨.unlimited, 8⟩⟩ := by
  have joined : Pass.distributeWithin 0 (fuel + 2) either ⟨deepStore, ⟨.unlimited, 2⟩⟩ =
      .ok either ⟨deepStore, ⟨.unlimited, 5⟩⟩ := Pass.combine_of_eq_ok _ (combine_again .or)
  have members : [equal, either].mapM (Pass.distributeWithin 0 (fuel + 2))
      ⟨deepStore, ⟨.unlimited, 1⟩⟩ = .ok [equal, either] ⟨deepStore, ⟨.unlimited, 5⟩⟩ :=
    bind_eq_of_ok joined
  exact bind_eq_of_ok members

/-- Of `a = x AND (a = x OR a IS NOT UNKNOWN)` the term `a = x` is left, and the AND of the two
leaves is left as it is. -/
theorem nested_distributed :
    Forest.run (Pass.distribute 0 nested) (deep.forest, .fresh .unlimited) =
      .ok equal (deep.forest, ⟨.unlimited, 8⟩) ∧
    (∀ r, deep.forest.holds r equal = deep.forest.holds r nested) ∧
    deep.forest.store.isOrOfAnd nested = false ∧ deep.forest.store.isOrOfAnd equal = true ∧
    deep.forest.store.isOrOfAnd both = true ∧
    ∃ used, Forest.run (Pass.distribute 0 both) (deep.forest, .fresh .unlimited) =
      .ok both (deep.forest, ⟨.unlimited, used⟩) := by
  have run : Forest.run (Pass.distribute 0 nested) (deep.forest, .fresh .unlimited) =
      .ok equal (deep.forest, ⟨.unlimited, 8⟩) := Forest.run_eq_ok (distributeWithin_nested _)
  have form : deep.forest.store.isOrOfAnd both = true := rfl
  have brought := reached_deep.distribution_normal_form usable_deep.2.1 0 (.fresh .unlimited)
  have left := reached_deep.distribution_normal_form usable_deep.2.2 0 (.fresh .unlimited)
  obtain ⟨means, normal⟩ := brought.1 _ _ _ run
  exact ⟨run, means, rfl, normal, form, (left.2 form).resolve_right fun h => h.1 rfl⟩

end Sample

end Criteria
