import Criteria.Proofs.Batch
import Criteria.Proofs.Irredundance
import Criteria.Proofs.Repetition.Distribution
import Criteria.Proofs.Repetition.Factoring

/-!
# What housekeeping does to the outcome

A simplification sweeps the store first if there are more lists than a threshold. Here two runs with
settings that differ in nothing but the threshold are compared. Each reads a clock of its own.

**Theorem (`Settings.sweep_observable_only_if_revives`).** With enough time both runs fail alike when
the expression is planted, or both succeed, unless the numbers run out, and their results mean the
same. The results are equal unless one run sweeps, the other does not, and the one that sweeps
builds a list again that it swept away (`Settings.Revives`).

A list that is built again gets a new number where it was swept away and has its old one where it was
not. Members are sorted by number, so then the results may differ (`Sample.order_of_revived`). If no
list is built again, then each list that the one run adds is new in the other, too, and gets the same
number there: the one that does not sweep does all that the other does again, beside what the other
swept away (`Forest.mapRoots_simplify_again`). Since no clock changes what a run comes to, all of
this may be argued under one clock (`simplify_unique`).
-/

namespace Criteria

namespace Pass

variable {v : Vocabulary} {w : Work} {n : Node} {cleanup : Nat}

theorem repeats_simplify (h : w.store.ValidNode v n) :
    (Work.repetition v).Repeats (simplify cleanup n) (simplify cleanup n) w fun n' w =>
      w.store.ValidNode v n' := by
  refine (repeats_prune ⟨h, Nat.le_refl _⟩).bind fun n₁ w₁ _ _ h₁ => ?_
  exact (repeats_distribute h₁.valid).bind fun n₂ w₂ _ _ h₂ => repeats_factor h₂

end Pass

/-! ## The same run beside other lists -/

namespace Forest

variable {f g : Forest} {s : Store} {cleanup : Nat} {budget budget' : Budget} {n : Node}

/-- What simplifying the roots comes to, it comes to beside other lists, too, if none of them is
built. -/
theorem mapRoots_simplify_again (hf : f.Valid)
    (run : mapRoots (Pass.simplify cleanup) (f, budget) = .ok () (g, budget'))
    (part : f.store.PartOf s) (room : s.Admits g.store) :
    ∃ t, mapRoots (Pass.simplify cleanup) ({ f with store := s }, budget) =
      .ok () ({ g with store := t }, budget') ∧ g.store.PartOf t := by
  obtain ⟨translator, store, roots⟩ := f
  have repeats : (Work.repetition translator.vocabulary).Repeats
      (roots.mapM (Pass.simplify cleanup)) (roots.mapM (Pass.simplify cleanup)) ⟨store, budget⟩
      fun ns w => List.Forall₂ (fun _ n => w.store.ValidNode translator.vocabulary n) roots ns :=
    .mapM (P := fun n (w : Work) => w.store.ValidNode translator.vocabulary n)
      (fun _ _ _ _ le h => h.mono le) (fun _ _ _ _ _ le h => h.mono le)
      (fun _ _ _ h => Pass.repeats_simplify h) hf.roots
  rw [mapRoots_eq] at run ⊢
  simp only [Forest.run] at run ⊢
  cases eq : roots.mapM (Pass.simplify cleanup) ⟨store, budget⟩ with
  | error failure w =>
    rw [eq] at run
    cases run
  | ok ns w =>
    rw [eq] at run
    cases run
    obtain ⟨-, -, -, again⟩ := repeats hf.store ns w eq
    obtain ⟨⟨t, budget'⟩, run', ⟨same, part'⟩, -⟩ := again ⟨s, budget⟩ ⟨rfl, part⟩ room
    obtain rfl : budget' = w.budget := same
    exact ⟨t, by rw [run'], part'⟩

theorem spell_of_partOf (hf : f.Valid) (hn : f.ValidNode n) (part : f.store.PartOf s) :
    spell { f with store := s } n = f.spell n :=
  Store.fold_of_list? (g := f.vocabulary.spelling) hf.store (fun _ _ => rfl) part.list?_of hn

end Forest

namespace Settings

variable {settings : Settings} {clock clock' : Nat → Nat} {e e' : Expression} {f g g' : Forest}
  {h h' : Nat}

/-- The settings with another threshold for sweeping. -/
def keeping (settings : Settings) (housekeeping : Nat) : Settings := { settings with housekeeping }

/-- Whether there are so many lists when the expression is planted that a sweep comes first. -/
def Sweeps (settings : Settings) (e : Expression) : Prop :=
  ∃ f, Forest.ofExpression e = .ok f ∧ settings.housekeeping < f.store.live

/-- Whether a simplification builds a list again that it swept away. -/
def Revives (settings : Settings) (clock : Nat → Nat) (e : Expression) : Prop :=
  ∃ f g l, Forest.ofExpression e = .ok f ∧ settings.simplifyForest clock f = .ok g ∧
    f.store.find? l ≠ none ∧ (f.sweepAbove settings.housekeeping).2.store.find? l = none ∧
    g.store.find? l ≠ none

/-- The forest that did not lose what a sweep took away has room for what was made of the rest. -/
theorem admits_of_not_revives (planted : Forest.ofExpression e = .ok f)
    (sweeps : settings.housekeeping < f.store.live)
    (done : settings.simplifyForest clock f = .ok g) (le : f.sweep.2.store.Extends g.store)
    (never : ¬ settings.Revives clock e) : f.store.Admits g.store := by
  intro id l hl
  have swept := Forest.sweepAbove_of_lt sweeps
  by_cases old : id < f.sweep.2.store.size
  · have hl' := (le.list?_eq id old).symm.trans hl
    exact .inl (Store.list?_of_sweep hl').2
  · refine .inr ⟨?_, ?_⟩
    · have size : f.sweep.2.store.size = f.store.size := Store.size_sweep
      omega
    · by_contra there
      refine never ⟨f, g, l, planted, done, there, ?_, ?_⟩
      · rw [swept, Option.eq_none_iff_forall_ne_some]
        intro id' found
        -- A list that was kept has one number, and it is an old one.
        have hl' := (Store.find?_eq_some_iff _ _ _).1 found
        obtain rfl : id = id' := Store.number_unique hl (le.list? hl')
        exact old (Store.Raw.lt_size_of_list? _ hl')
      · rw [(Store.find?_eq_some_iff _ _ _).2 hl]
        exact Option.some_ne_none id

theorem simplifyForest_keeping (settings : Settings) (h : Nat) (clock : Nat → Nat) (f : Forest) :
    (settings.keeping h).simplifyForest clock f =
      match Forest.mapRoots (Pass.simplify settings.cleanup)
        ((f.sweepAbove h).2, settings.budget clock) with
      | .ok () (g, _) => .ok g
      | .error failure _ => .error failure := rfl

/-- A run with enough time whose one root becomes another one. -/
theorem simplifyForest_of_becomes (settings : Settings) {n m : Node} {s t : Store}
    (root : f.roots = [n]) (store : (f.sweepAbove h).2.store = s)
    (becomes : (Pass.simplify settings.cleanup n).Becomes s m t)
    (inTime : ∀ k, clock k < settings.milliseconds) :
    (settings.keeping h).simplifyForest clock f =
      .ok { (f.sweepAbove h).2 with store := t, roots := [m] } := by
  have each : Pass.Becomes ([n].mapM (Pass.simplify settings.cleanup)) (f.sweepAbove h).2.store
      [m] t := by
    rw [List.mapM_cons, List.mapM_nil, store]
    exact becomes.bind ((Pass.Becomes.pure []).bind (.pure [m]))
  have never : ∀ used, (Budget.mk (.deadline settings.milliseconds clock) used).overrun? = none :=
    fun k => by simp only [Budget.overrun?, if_pos (inTime k)]
  obtain ⟨used, run⟩ := Forest.run_of_becomes
    (.mapM (Pass.composed_simplify settings.cleanup) [n]) each never
  rw [simplifyForest_keeping, Forest.mapRoots_eq, show (f.sweepAbove h).2.roots = [n] from root,
    show settings.budget clock = .fresh (.deadline settings.milliseconds clock) from rfl, run]

/-- A run that does not sweep gives what one that sweeps gives, if this builds nothing again that it
swept away. -/
theorem simplify_of_not_revives (planted : Forest.ofExpression e = .ok f)
    (sweeps : h < f.store.live) (few : f.store.live ≤ h')
    (never : ¬ (settings.keeping h).Revives clock e)
    (ok : (settings.keeping h).simplify clock e = .ok e') :
    (settings.keeping h').simplify clock e = .ok e' := by
  have hf := (Forest.valid_ofExpression planted).1
  cases done : (settings.keeping h).simplifyForest clock f with
  | error failure =>
    rw [simplify_of_simplifyForest_error planted done] at ok
    cases ok
  | ok g =>
    have run : ∃ budget, Forest.mapRoots (Pass.simplify settings.cleanup)
        (f.sweep.2, settings.budget clock) = .ok () (g, budget) := by
      rw [simplifyForest_keeping, Forest.sweepAbove_of_lt sweeps] at done
      split at done
      · next budget run =>
        cases done
        exact ⟨budget, run⟩
      · cases done
    obtain ⟨budget, run⟩ := run
    obtain ⟨hg, -, le, -⟩ :=
      Forest.mapRoots_ok (fun _ => Pass.keeps_simplify settings.cleanup) hf.sweep run
    have part : f.sweep.2.store.PartOf f.store :=
      ⟨Nat.le_of_eq Store.size_sweep, fun hl => (Store.list?_of_sweep hl).2⟩
    obtain ⟨t, again, part'⟩ := Forest.mapRoots_simplify_again hf.sweep run part
      (admits_of_not_revives planted sweeps done le never)
    have whole : { f.sweep.2 with store := f.store } = f := rfl
    have done' : (settings.keeping h').simplifyForest clock f = .ok { g with store := t } := by
      rw [simplifyForest_keeping, Forest.sweepAbove_of_le few, ← whole, again]
    obtain ⟨n, roots, read⟩ := exists_simplify_eq_ok planted done
    obtain ⟨n', roots', read'⟩ := exists_simplify_eq_ok planted done'
    obtain rfl : n = n' := List.head_eq_of_cons_eq (roots.symm.trans roots')
    have hn : g.ValidNode n := hg.roots n (roots ▸ List.mem_singleton_self n)
    rw [read', Forest.spell_of_partOf hg hn part', ← read, ok]

/-- Runs that both sweep, or both do not, are one run. -/
theorem simplify_eq_of_iff (planted : Forest.ofExpression e = .ok f)
    (alike : h < f.store.live ↔ h' < f.store.live) :
    (settings.keeping h').simplify clock e = (settings.keeping h).simplify clock e := by
  have swept : (f.sweepAbove h').2 = (f.sweepAbove h).2 := by
    by_cases sweeps : h < f.store.live
    · rw [Forest.sweepAbove_of_lt sweeps, Forest.sweepAbove_of_lt (alike.1 sweeps)]
    · rw [Forest.sweepAbove_of_le (Nat.not_lt.1 sweeps),
        Forest.sweepAbove_of_le (Nat.not_lt.1 (mt alike.2 sweeps))]
  have same : (settings.keeping h').simplifyForest clock f =
      (settings.keeping h).simplifyForest clock f := by
    rw [simplifyForest_keeping, simplifyForest_keeping, swept]
  rw [simplify, simplify, planted]
  show ((settings.keeping h').simplifyForest clock f >>= _) = _
  rw [same]
  rfl

/-- Under `a` a simplification sweeps and builds a list again that it swept away, and under `b` it
does not sweep. -/
structure RevivesAlone (a b : Settings) (clock : Nat → Nat) (e : Expression) : Prop where
  sweeps : a.Sweeps e
  not_sweeps : ¬ b.Sweeps e
  revives : a.Revives clock e

theorem sweeps_iff (planted : Forest.ofExpression e = .ok f) :
    settings.Sweeps e ↔ settings.housekeeping < f.store.live := by
  refine ⟨fun ⟨g, planted', lt⟩ => ?_, fun lt => ⟨f, planted, lt⟩⟩
  cases planted.symm.trans planted'
  exact lt

/-- No clock changes what a forest is simplified to. -/
theorem simplifyForest_unique (done : settings.simplifyForest clock f = .ok g)
    (done' : settings.simplifyForest clock' f = .ok g') : g' = g := by
  obtain ⟨out, u, used, -, -, -, any⟩ := Forest.Run.stepTransparent
    (Forest.transparent_simplify settings.cleanup settings.housekeeping) f
  have ends : ∀ {clock g}, settings.simplifyForest clock f = .ok g → g = u := by
    intro clock g done
    have run : Forest.simplify settings.cleanup settings.housekeeping (f, settings.budget clock) =
          ending out (u, ⟨.deadline settings.milliseconds clock, used⟩) ∨ _ :=
      any (.deadline settings.milliseconds clock)
    rw [simplifyForest] at done
    rcases run with run | ⟨o, g', k, -, run⟩
    · rw [run] at done
      cases out with
      | ok _ =>
        cases done
        rfl
      | error failure => cases done
    · have run : Forest.simplify settings.cleanup settings.housekeeping
          (f, settings.budget clock) = _ := run
      rw [run] at done
      cases done
  rw [ends done, ends done']

/-- No clock changes what an expression is simplified to. -/
theorem simplify_unique {e₁ e₂ : Expression} (ok : settings.simplify clock e = .ok e₁)
    (ok' : settings.simplify clock' e = .ok e₂) : e₂ = e₁ := by
  cases planted : Forest.ofExpression e with
  | error fault =>
    rw [simplify_of_ofExpression_error planted] at ok
    cases ok
  | ok f =>
    have answers : ∀ {clock e'}, settings.simplify clock e = .ok e' →
        ∃ g n, settings.simplifyForest clock f = .ok g ∧ g.roots = [n] ∧ e' = g.spell n := by
      intro clock e' ok
      cases done : settings.simplifyForest clock f with
      | error failure =>
        rw [simplify_of_simplifyForest_error planted done] at ok
        cases ok
      | ok g =>
        obtain ⟨n, roots, read⟩ := exists_simplify_eq_ok planted done
        exact ⟨g, n, rfl, roots, Except.ok.inj (ok.symm.trans read)⟩
    obtain ⟨g, n, done, roots, rfl⟩ := answers ok
    obtain ⟨g', n', done', roots', rfl⟩ := answers ok'
    obtain rfl := simplifyForest_unique done done'
    rw [List.head_eq_of_cons_eq (roots.symm.trans roots')]

/-- Two runs that succeed come to the same unless one alone sweeps and builds a list again that it
swept away. -/
theorem eq_or_revivesAlone {e₁ e₂ : Expression} (planted : Forest.ofExpression e = .ok f)
    (ok₁ : (settings.keeping h).simplify clock e = .ok e₁)
    (ok₂ : (settings.keeping h').simplify clock' e = .ok e₂) :
    e₂ = e₁ ∨ (settings.keeping h).RevivesAlone (settings.keeping h') clock e ∨
      (settings.keeping h').RevivesAlone (settings.keeping h) clock' e := by
  by_cases alike : h < f.store.live ↔ h' < f.store.live
  · left
    rw [← simplify_eq_of_iff planted alike] at ok₁
    exact simplify_unique ok₁ ok₂
  by_cases sweeps : h < f.store.live
  · have few : ¬ h' < f.store.live := fun sweeps' => alike (iff_of_true sweeps sweeps')
    by_cases revives : (settings.keeping h).Revives clock e
    · exact .inr (.inl ⟨(sweeps_iff planted).2 sweeps, mt (sweeps_iff planted).1 few, revives⟩)
    · left
      exact simplify_unique
        (simplify_of_not_revives planted sweeps (Nat.not_lt.1 few) revives ok₁) ok₂
  · have sweeps' : h' < f.store.live := by_contra fun few => alike (iff_of_false sweeps few)
    by_cases revives : (settings.keeping h').Revives clock' e
    · exact .inr (.inr ⟨(sweeps_iff planted).2 sweeps', mt (sweeps_iff planted).1 sweeps, revives⟩)
    · left
      exact simplify_unique ok₁
        (simplify_of_not_revives planted sweeps' (Nat.not_lt.1 sweeps) revives ok₂)

/-- What two runs come to that differ in the threshold for sweeping and have enough time, each by a
clock of its own. They fail alike if a leaf is malformed or the words do not fit. Else, unless the
numbers run out, both succeed and mean the same, and they come to the same unless one alone sweeps
and builds a list again that it swept away. -/
theorem sweep_observable_only_if_revives (settings : Settings) (clock clock' : Nat → Nat)
    (e : Expression) (h h' : Nat)
    (inTime : ∀ o, (settings.keeping h).simplify clock e ≠ .error (.overrun o))
    (inTime' : ∀ o, (settings.keeping h').simplify clock' e ≠ .error (.overrun o)) :
    (settings.keeping h).RunsOut clock e ∨ (settings.keeping h').RunsOut clock' e ∨
    (¬ (e.WellFormed ∧ Expression.WordsFit [e]) ∧
      ∃ fault, (settings.keeping h).simplify clock e = .error (.fault fault) ∧
        (settings.keeping h').simplify clock' e = .error (.fault fault)) ∨
    ∃ e₁ e₂, (settings.keeping h).simplify clock e = .ok e₁ ∧
      (settings.keeping h').simplify clock' e = .ok e₂ ∧ (∀ r, e₂.holds r = e₁.holds r) ∧
      (e₂ = e₁ ∨ (settings.keeping h).RevivesAlone (settings.keeping h') clock e ∨
        (settings.keeping h').RevivesAlone (settings.keeping h) clock' e) := by
  cases planted : Forest.ofExpression e with
  | error fault =>
    by_cases fine : e.WellFormed ∧ Expression.WordsFit [e]
    · rcases Forest.ofExpression_of_wordsFit fine.1 fine.2 with
        ⟨f, ok⟩ | ⟨v, id, f, words, run, full, -⟩
      · cases planted.symm.trans ok
      · exact .inl (.planting words run full)
    · exact .inr (.inr (.inl ⟨fine, fault, simplify_of_ofExpression_error planted,
        simplify_of_ofExpression_error planted⟩))
  | ok f =>
  rcases (settings.keeping h).simplify_cases clock planted with
    ⟨e₁, ok₁⟩ | ⟨o, late⟩ | ⟨full, -⟩
  rotate_left
  · exact (inTime o late).elim
  · exact .inl full
  rcases (settings.keeping h').simplify_cases clock' planted with
    ⟨e₂, ok₂⟩ | ⟨o, late⟩ | ⟨full, -⟩
  rotate_left
  · exact (inTime' o late).elim
  · exact .inr (.inl full)
  have means : ∀ r, e₂.holds r = e₁.holds r := fun r => by
    rw [holds_simplify ok₁, holds_simplify ok₂]
  exact .inr (.inr (.inr ⟨e₁, e₂, ok₁, ok₂, means, eq_or_revivesAlone planted ok₁ ok₂⟩))

end Settings

/-! ## A list that is built again -/

namespace Sample

/-- The expression `((a > x AND a CONTAINS x) AND a IS NOT UNKNOWN) OR (a < x AND a = x)`. -/
def reviving : Expression :=
  .combined .or
    [.combined .and [.combined .and [.leaf greaterLeaf, .leaf containingLeaf], .leaf knownLeaf],
      .combined .and [.leaf lessLeaf, .leaf equalLeaf]]

/-- The node of `a > x AND a CONTAINS x AND a IS NOT UNKNOWN`. -/
def checked : Node := .combined .and 1

/-- The node of `a < x AND a = x`. -/
def other : Node := .combined .and 2

/-- The node of `reviving`. -/
def revivingRoot : Node := .combined .or 3

/-- The expression `(a > x AND a CONTAINS x) OR (a < x AND a = x)`. -/
def ordered : Expression :=
  .combined .or [.combined .and [.leaf greaterLeaf, .leaf containingLeaf],
    .combined .and [.leaf lessLeaf, .leaf equalLeaf]]

/-- The expression `(a < x AND a = x) OR (a > x AND a CONTAINS x)`. -/
def reordered : Expression :=
  .combined .or [.combined .and [.leaf lessLeaf, .leaf equalLeaf],
    .combined .and [.leaf greaterLeaf, .leaf containingLeaf]]

/-! ### Planting -/

/-- The store in which the list of `checked` was added to that of `a > x AND a CONTAINS x`. -/
def checkedStore : Store :=
  loose.push [greater, containing, known] (Store.find?_eq_none (by decide))

/-- The store with the list of `other` besides. -/
def otherStore : Store := checkedStore.push [less, equal] (Store.find?_eq_none (by decide))

/-- The store with the list of `revivingRoot` besides. -/
def revivingStore : Store := otherStore.push [checked, other] (Store.find?_eq_none (by decide))

theorem planted_reviving : ∃ t, Forest.ofExpression reviving =
    .ok ⟨t, revivingStore, [revivingRoot]⟩ ∧ t.vocabulary = vocabulary := by
  have joined : (Store.empty Store.defaultThreshold).combine .and [greater, containing] =
      .ok (both, loose) := Store.combine_of_new (by rfl) (by decide) (by decide) (by decide)
  have joined₁ : loose.combine .and [both, known] = .ok (checked, checkedStore) :=
    Store.combine_of_new (by rfl) (by decide) (by decide) (by decide)
  have joined₂ : checkedStore.combine .and [less, equal] = .ok (other, otherStore) :=
    Store.combine_of_new (by rfl) (by decide) (by decide) (by decide)
  have joined₃ : otherStore.combine .or [checked, other] = .ok (revivingRoot, revivingStore) :=
    Store.combine_of_new (by rfl) (by decide) (by decide) (by decide)
  have inner : Forest.Planted vocabulary (.empty Store.defaultThreshold)
      (.combined .and [.leaf greaterLeaf, .leaf containingLeaf]) both loose :=
    .combined (.cons (.leaf codes_greater) (.cons (.leaf codes_containing) .nil)) joined
  have first : Forest.Planted vocabulary (.empty Store.defaultThreshold)
      (.combined .and [.combined .and [.leaf greaterLeaf, .leaf containingLeaf], .leaf knownLeaf])
      checked checkedStore :=
    .combined (.cons inner (.cons (.leaf codes_known) .nil)) joined₁
  have second : Forest.Planted vocabulary checkedStore
      (.combined .and [.leaf lessLeaf, .leaf equalLeaf]) other otherStore :=
    .combined (.cons (.leaf codes_less) (.cons (.leaf codes_equal) .nil)) joined₂
  have whole : Forest.Planted vocabulary (.empty Store.defaultThreshold) reviving revivingRoot
      revivingStore := .combined (.cons first (.cons second .nil)) joined₃
  obtain ⟨t, rooted, -, same⟩ := whole.ofExpression (vocabulary_of_words rfl rfl)
  exact ⟨t, rooted, same⟩

/-! ### Simplifying -/

/-- Of `checked` only `a > x AND a CONTAINS x` is left, the node `m`, and the OR of this and `other`
is `r`, with the list `l`. -/
structure Rebuilds (s : Store) (m : Node) (t : Store) (r : Node) (u : Store) (l : List Node) :
    Prop where
  valid : s.Valid vocabulary
  checked : s.list? 1 = some [greater, containing, known]
  other : s.list? 2 = some [less, equal]
  root : s.list? 3 = some [Sample.checked, Sample.other]
  rejoined : s.combine .and [greater, containing, .all] = .ok (m, t)
  isAnd : m.connective? = some .and
  pair : t.list? m.number = some [greater, containing]
  joined : t.combine .or [m, Sample.other] = .ok (r, u)
  isOr : r.connective? = some .or
  list : u.list? r.number = some l
  order : l = [m, Sample.other] ∨ l = [Sample.other, m]

namespace Rebuilds

variable {s t u : Store} {m r : Node} {l : List Node} {fuel cleanup : Nat}

theorem valid_pair (h : Rebuilds s m t r u l) :
    t.Valid vocabulary ∧ s.Extends t ∧ t.ValidNode vocabulary m := by
  have valid := h.valid.members _ _ h.checked
  refine Store.valid_of_combine h.valid ?_ h.rejoined
  simp only [List.forall_mem_cons] at valid ⊢
  exact ⟨valid.1, valid.2.1, .constant (by decide), by simp⟩

theorem valid_other (h : Rebuilds s m t r u l) : s.ValidNode vocabulary Sample.other :=
  h.valid.members _ _ h.root _ (by decide)

theorem valid_root (h : Rebuilds s m t r u l) :
    u.Valid vocabulary ∧ t.Extends u ∧ u.ValidNode vocabulary r := by
  obtain ⟨ht, le, hm⟩ := h.valid_pair
  refine Store.valid_of_combine ht ?_ h.joined
  exact List.forall_mem_cons.2 ⟨hm, List.forall_mem_singleton.2 (h.valid_other.mono le)⟩

theorem irreducible_pair (h : Rebuilds s m t r u l) : t.Irreducible [] m :=
  .of_leaves h.isAnd h.pair (by decide) (by decide) (by decide)

theorem irreducible_other (h : Rebuilds s m t r u l) : s.Irreducible [] Sample.other :=
  .of_leaves rfl h.other (by decide) (by decide) (by decide)

theorem ne_checked (h : Rebuilds s m t r u l) : m ≠ Sample.checked := by
  rintro rfl
  cases h.pair.symm.trans (h.valid_pair.2.1.list? h.checked)

/-- The two ANDs tell nothing of each other. -/
theorem apart (h : Rebuilds s m t r u l) : m ≠ Sample.other ∧
    u.implies m Sample.other = .ok false ∧ u.implies Sample.other m = .ok false := by
  have list := h.valid_pair.2.1.list? h.other
  have list' : u.list? Sample.other.number = _ := h.valid_root.2.1.list? list
  have pair := h.valid_root.2.1.list? h.pair
  have ne : m ≠ Sample.other := by
    rintro rfl
    cases h.pair.symm.trans list
  refine ⟨ne, ?_, ?_⟩
  · rw [Store.implies_of_leaves h.isAnd pair (by decide) rfl list' (by decide) ne]
    rfl
  · rw [Store.implies_of_leaves rfl list' (by decide) h.isAnd pair (by decide) ne.symm]
    rfl

theorem irreducible_root (h : Rebuilds s m t r u l) : u.Irreducible [] r := by
  obtain ⟨ht, le, hm⟩ := h.valid_pair
  obtain ⟨-, le', -⟩ := h.valid_root
  have first : m.isCombined = true ∧ u.Irreducible [] m :=
    ⟨Node.isCombined_of_connective? h.isAnd, h.irreducible_pair.mono ht le' hm⟩
  have second : Sample.other.isCombined = true ∧ u.Irreducible [] Sample.other :=
    ⟨rfl, h.irreducible_other.mono h.valid (le.trans le') h.valid_other⟩
  obtain ⟨ne, forth, back⟩ := h.apart
  rcases h.order with rfl | rfl
  · refine .of_alternatives h.isOr h.list ?_ (List.pairwise_pair.2 ⟨ne, forth, back⟩)
    exact List.forall_mem_cons.2 ⟨first, List.forall_mem_singleton.2 second⟩
  · refine .of_alternatives h.isOr h.list ?_ (List.pairwise_pair.2 ⟨ne.symm, back, forth⟩)
    exact List.forall_mem_cons.2 ⟨second, List.forall_mem_singleton.2 first⟩

theorem terms (h : Rebuilds s m t r u l) : ∃ ls, u.Terms l ls ∧
    ls.Pairwise fun l l' => Ascending.intersect l l' = [] := by
  have pair := h.valid_root.2.1.list? h.pair
  have list := h.valid_root.2.1.list? (h.valid_pair.2.1.list? h.other)
  rcases h.order with rfl | rfl
  · exact ⟨[[greater, containing], [less, equal]],
      .cons ⟨h.isAnd, pair, by decide⟩ (.cons ⟨rfl, list, by decide⟩ .nil), by decide⟩
  · exact ⟨[[less, equal], [greater, containing]],
      .cons ⟨rfl, list, by decide⟩ (.cons ⟨h.isAnd, pair, by decide⟩ .nil), by decide⟩

/-- The check that `a` is known is implied by the other two and goes. -/
theorem becomes_checked (h : Rebuilds s m t r u l) :
    Pass.Becomes (Pass.pruneWithin (fuel + 3) Sample.checked []) s m t := by
  have valid := h.valid.members _ _ h.checked
  rw [List.forall_mem_cons, List.forall_mem_cons] at valid
  have settled : s.settledBy known [greater, containing] = .ok (some true) := by
    rw [Store.settledBy, Store.implies_leaf (by decide) (by decide)]
    rfl
  have pruned : Pass.Becomes (Pass.pruneMembers (Pass.pruneWithin (fuel + 2)) .and []
      [greater, containing, known]) s (some [greater, containing, .all]) s := by
    refine Pass.becomes_pruneMembers [⟨containing, some containing⟩, ⟨known, some known⟩]
      (.of_still fun _ => .pure fun _ => rfl) ?_
    refine Pass.becomes_pruneFrom_cons
      (Pass.becomes_pruneWithin_leaf h.valid valid.1 (by decide) (by decide)) (by decide)
      (Pass.becomes_premise_and (by decide)) ?_
    refine Pass.becomes_pruneFrom_cons
      (Pass.becomes_pruneWithin_leaf h.valid valid.2.1 (by decide) (by decide)) (by decide)
      (Pass.becomes_premise_and (by decide)) ?_
    exact Pass.becomes_pruneFrom_nil
      (Pass.becomes_pruneWithin_of_settled (by decide) settled) (by decide)
  obtain ⟨ht, -, hm⟩ := h.valid_pair
  refine Pass.becomes_pruneWithin ht rfl (fun a ha => by cases ha) ?_ h.ne_checked hm h.isAnd
    h.irreducible_pair
  exact Pass.becomes_pruneOnce rfl h.checked (by simp) pruned h.rejoined h.isAnd h.pair
    (h.irreducible_pair.retained h.isAnd h.pair)

theorem becomes_root (h : Rebuilds s m t r u l) :
    Pass.Becomes (Pass.prune revivingRoot) s r u := by
  obtain ⟨ht, le, -⟩ := h.valid_pair
  obtain ⟨hu, le', hr⟩ := h.valid_root
  have pruned : ∀ {fuel}, Pass.Becomes (Pass.pruneMembers (Pass.pruneWithin (fuel + 3)) .or []
      [Sample.checked, Sample.other]) s (some [m, Sample.other]) t := fun {fuel} => by
    refine Pass.becomes_pruneMembers [⟨Sample.other, none⟩]
      (.of_still fun _ => .pure fun _ => rfl) ?_
    refine Pass.becomes_pruneFrom_cons h.becomes_checked
      (Node.ne_constant_of_connective? h.isAnd).1
      (Pass.becomes_premise_or (Node.isCombined_of_connective? h.isAnd)) ?_
    have kept := h.irreducible_other.mono h.valid le h.valid_other
    exact Pass.becomes_pruneFrom_nil (.of_still fun _ =>
      Pass.spares_pruneWithin ht _ (h.valid_other.mono le) kept) (by decide)
  have ne : r ≠ revivingRoot := by
    rintro rfl
    have list := h.list.symm.trans (le'.list? (le.list? h.root))
    have ne := h.ne_checked
    have ne' := h.apart.1
    rcases h.order with rfl | rfl <;> simp_all
  refine Pass.becomes_of_effort (x := (Pass.pruneWithin · revivingRoot [])) fun fuel => ?_
  refine Pass.becomes_pruneWithin hu rfl (fun a ha => by cases ha) ?_ ne hr h.isOr
    h.irreducible_root
  exact Pass.becomes_pruneOnce rfl h.root (fun _ => rfl) pruned h.joined h.isOr h.list
    (h.irreducible_root.retained h.isOr h.list)

theorem becomes_simplify (h : Rebuilds s m t r u l) :
    Pass.Becomes (Pass.simplify cleanup revivingRoot) s r u := by
  obtain ⟨hu, -, hr⟩ := h.valid_root
  obtain ⟨ls, terms, apart⟩ := h.terms
  exact Pass.becomes_simplify h.becomes_root hu hr h.isOr h.list terms apart h.irreducible_root

theorem spell_pair (h : Rebuilds s m t r u l) :
    u.spell vocabulary m = .combined .and [.leaf greaterLeaf, .leaf containingLeaf] := by
  obtain ⟨hu, le, -⟩ := h.valid_root
  rw [Store.spell_combined hu h.isAnd (le.list? h.pair), List.map_cons, List.map_cons,
    List.map_nil, Store.spell_of_codes codes_greater, Store.spell_of_codes codes_containing]

theorem spell_other (h : Rebuilds s m t r u l) :
    u.spell vocabulary Sample.other = .combined .and [.leaf lessLeaf, .leaf equalLeaf] := by
  obtain ⟨hu, le, -⟩ := h.valid_root
  have list : u.list? Sample.other.number = _ := le.list? (h.valid_pair.2.1.list? h.other)
  rw [Store.spell_combined hu rfl list, List.map_cons, List.map_cons, List.map_nil,
    Store.spell_of_codes codes_less, Store.spell_of_codes codes_equal]

/-- What the simplified root is read back as. -/
theorem simplify_eq (h : Rebuilds s m t r u l) {f : Forest} {threshold : Nat} {clock : Nat → Nat}
    (planted : Forest.ofExpression reviving = .ok f) (words : f.vocabulary = vocabulary)
    (root : f.roots = [revivingRoot]) (store : (f.sweepAbove threshold).2.store = s)
    (inTime : ∀ k, clock k < settings.milliseconds) :
    (settings.keeping threshold).simplify clock reviving =
      .ok (.combined .or (l.map (u.spell vocabulary))) := by
  have done := settings.simplifyForest_of_becomes root store h.becomes_simplify inTime
  obtain ⟨n, roots, read⟩ := Settings.exists_simplify_eq_ok planted done
  cases roots
  obtain ⟨hu, -, -⟩ := h.valid_root
  rw [read, ← Store.spell_combined hu h.isOr h.list, ← words]
  rfl

end Rebuilds

/-! ### The two runs -/

/-- Without a sweep the list of the pair is found again. -/
theorem rebuilds_found : Rebuilds revivingStore both revivingStore (.combined .or 4)
    (revivingStore.push [both, other] (Store.find?_eq_none (by decide))) [both, other] := by
  obtain ⟨t, planted, same⟩ := planted_reviving
  have valid : revivingStore.Valid t.vocabulary := (Forest.valid_ofExpression planted).1.store
  have found : revivingStore.find? [greater, containing] = some 0 :=
    (Store.find?_eq_some_iff _ _ _).2 rfl
  have rest : revivingStore.combine .and [greater, containing, .all] =
      revivingStore.wrap .and [greater, containing] := by rfl
  exact {
    valid := same ▸ valid
    checked := rfl
    other := rfl
    root := rfl
    rejoined := rest.trans (Store.wrap_of_register (by decide)
      (Store.register_of_find? (by decide) found) (by decide))
    isAnd := rfl
    pair := rfl
    joined := Store.combine_of_new (by rfl) (by decide) (by decide) (by decide)
    isOr := rfl
    list := rfl
    order := .inl rfl }

/-- The store after a sweep. -/
def sweptStore : Store := (revivingStore.sweep [revivingRoot]).2

/-- All lists but that of the pair are reached. -/
theorem reaches_iff {id : Nat} : revivingStore.Reaches [revivingRoot] id ↔ id ∈ [1, 2, 3] := by
  have inner : ∀ id ∈ [1, 2, 3], ∀ m ∈ (revivingStore.list? id).getD [], m.isCombined = true →
      m.number ∈ [1, 2, 3] := by decide
  have root : revivingStore.Reaches [revivingRoot] 3 :=
    .root (k := .or) (n := revivingRoot) List.mem_cons_self rfl
  constructor
  · intro h
    induction h with
    | root hn _ =>
      obtain rfl := List.mem_singleton.1 hn
      decide
    | @member id l m k _ hl hm hk ih =>
      exact inner id ih m (by rwa [hl]) (Node.isCombined_of_connective? hk)
  · simp only [List.mem_cons, List.not_mem_nil, or_false]
    rintro (rfl | rfl | rfl)
    · exact root.member (k := .and) (m := checked) rfl List.mem_cons_self rfl
    · exact root.member (k := .and) (m := other) rfl (by decide) rfl
    · exact root

theorem list?_sweptStore {id : Nat} :
    sweptStore.list? id = if id ∈ [1, 2, 3] then revivingStore.list? id else none := by
  rw [sweptStore, Store.list?_sweep]
  simp only [Store.Raw.mem_reachable_iff, reaches_iff]

theorem size_sweptStore : sweptStore.size = 4 := Store.size_sweep

theorem find?_pair : sweptStore.find? [greater, containing] = none :=
  Store.find?_eq_none (by simp only [size_sweptStore, list?_sweptStore]; decide)

/-- The swept store with the list of `a > x AND a CONTAINS x` again. -/
def pairStore : Store := sweptStore.push [greater, containing] find?_pair

theorem size_pairStore : pairStore.size = 5 := by
  rw [pairStore, Store.size_push, size_sweptStore]

theorem list?_pairStore {id : Nat} : pairStore.list? id =
    if id = 4 then some [greater, containing] else sweptStore.list? id := by
  rw [pairStore, Store.list?_push, size_sweptStore]

theorem find?_alternatives : pairStore.find? [other, .combined .and 4] = none :=
  Store.find?_eq_none (by simp only [size_pairStore, list?_pairStore, list?_sweptStore]; decide)

/-- After a sweep the list of the pair is new, and gets a number after that of `other`. -/
theorem rebuilds_revived : Rebuilds sweptStore (.combined .and 4) pairStore (.combined .or 5)
    (pairStore.push [other, .combined .and 4] find?_alternatives) [other, .combined .and 4] := by
  obtain ⟨t, planted, same⟩ := planted_reviving
  have valid : revivingStore.Valid t.vocabulary := (Forest.valid_ofExpression planted).1.store
  have rest : sweptStore.combine .and [greater, containing, .all] =
      sweptStore.wrap .and [greater, containing] := by rfl
  have rejoined : sweptStore.combine .and [greater, containing, .all] =
      .ok (.combined .and sweptStore.size, pairStore) :=
    Store.combine_of_new rest (by decide) (by decide) (by rw [size_sweptStore]; decide)
  have rest' : pairStore.combine .or [.combined .and 4, other] =
      pairStore.wrap .or [other, .combined .and 4] := by rfl
  have joined : pairStore.combine .or [.combined .and 4, other] = .ok (.combined .or pairStore.size,
      pairStore.push [other, .combined .and 4] find?_alternatives) :=
    Store.combine_of_new rest' (by decide) (by decide) (by rw [size_pairStore]; decide)
  rw [size_sweptStore] at rejoined
  rw [size_pairStore] at joined
  have list : (pairStore.push [other, .combined .and 4] find?_alternatives).list? 5 =
      some [other, .combined .and 4] := by
    rw [Store.list?_push, size_pairStore]
    rfl
  exact {
    valid := same ▸ valid.sweep
    checked := list?_sweptStore
    other := list?_sweptStore
    root := list?_sweptStore
    rejoined := rejoined
    isAnd := rfl
    pair := list?_pairStore
    joined := joined
    isOr := rfl
    list := list
    order := .inr rfl }

theorem live_revivingStore : revivingStore.live = 4 := by
  have first : checkedStore.live = 2 := by
    rw [checkedStore, Store.live_push, loose, Store.live_push]
    rfl
  have second : otherStore.live = 3 := by rw [otherStore, Store.live_push, first]
  rw [revivingStore, Store.live_push, second]

theorem clock_lt (k : Nat) : clock k < settings.milliseconds :=
  (by decide : 0 < settings.milliseconds)

theorem simplify_found : settings.simplify clock reviving = .ok ordered := by
  obtain ⟨t, planted, words⟩ := planted_reviving
  have few : revivingStore.live ≤ settings.housekeeping := by
    rw [live_revivingStore]
    decide
  have kept : (Forest.sweepAbove settings.housekeeping ⟨t, revivingStore, [revivingRoot]⟩).2 =
      ⟨t, revivingStore, [revivingRoot]⟩ := Forest.sweepAbove_of_le few
  have simplified := rebuilds_found.simplify_eq planted words rfl
    (show (Forest.sweepAbove settings.housekeeping _).2.store = _ by rw [kept])
    clock_lt
  rw [List.map_cons, List.map_cons, List.map_nil, rebuilds_found.spell_pair,
    rebuilds_found.spell_other] at simplified
  exact simplified

theorem simplify_revived {clock : Nat → Nat} (inTime : ∀ k, clock k < settings.milliseconds) :
    (settings.keeping 0).simplify clock reviving = .ok reordered := by
  obtain ⟨t, planted, words⟩ := planted_reviving
  have many : 0 < revivingStore.live := by
    rw [live_revivingStore]
    decide
  have swept : (Forest.sweepAbove 0 ⟨t, revivingStore, [revivingRoot]⟩).2 =
      ⟨t, sweptStore, [revivingRoot]⟩ := Forest.sweepAbove_of_lt many
  have simplified := rebuilds_revived.simplify_eq planted words rfl
    (show (Forest.sweepAbove 0 _).2.store = _ by rw [swept]) inTime
  rw [List.map_cons, List.map_cons, List.map_nil, rebuilds_revived.spell_pair,
    rebuilds_revived.spell_other] at simplified
  exact simplified

/-- The settings that differ in the threshold only change the order of the result. -/
theorem order_of_revived : reviving.WellFormed ∧
    settings.simplify clock reviving = .ok ordered ∧
    (settings.keeping 0).simplify clock reviving = .ok reordered ∧ reordered ≠ ordered := by
  refine ⟨by decide, simplify_found, simplify_revived clock_lt, fun eq => ?_⟩
  cases eq

/-- A clock that ticks at each check until there is a millisecond left. -/
def ticking (k : Nat) : Nat := min k (settings.milliseconds - 1)

theorem ticking_lt (k : Nat) : ticking k < settings.milliseconds :=
  Nat.lt_of_le_of_lt (Nat.min_le_right _ _) (by decide)

/-- The run that sweeps builds the list of `a > x AND a CONTAINS x` again, and the other run does not
sweep. -/
theorem revived_alone : (∀ o, settings.simplify clock reviving ≠ .error (.overrun o)) ∧
    (∀ o, (settings.keeping 0).simplify ticking reviving ≠ .error (.overrun o)) ∧
    (settings.keeping 0).RevivesAlone settings ticking reviving := by
  have revived := simplify_revived ticking_lt
  have inTime : ∀ o, settings.simplify clock reviving ≠ .error (.overrun o) := fun o late => by
    cases simplify_found.symm.trans late
  have inTime' : ∀ o, (settings.keeping 0).simplify ticking reviving ≠ .error (.overrun o) :=
    fun o late => by cases revived.symm.trans late
  refine ⟨inTime, inTime', ?_⟩
  rcases Settings.sweep_observable_only_if_revives settings clock ticking reviving
    settings.housekeeping 0 inTime inTime' with out | out | ⟨-, fault, failed, -⟩ |
    ⟨e₁, e₂, ok₁, ok₂, -, same | alone | alone⟩
  · exact (out.ne_ok _ simplify_found).elim
  · exact (out.ne_ok _ revived).elim
  · cases simplify_found.symm.trans failed
  · cases simplify_found.symm.trans ok₁
    cases revived.symm.trans ok₂
    cases same
  · obtain ⟨f, planted, many⟩ := alone.sweeps
    obtain ⟨t, planted', -⟩ := planted_reviving
    cases planted'.symm.trans planted
    have few : revivingStore.live ≤ settings.housekeeping := by
      rw [live_revivingStore]
      decide
    exact absurd many (Nat.not_lt.2 few)
  · exact alone

end Sample

end Criteria
