import Criteria.Proofs.Session

/-!
# What users may rely on

Nodes are judged by the records that they hold of, in sessions in which only usable nodes were
handed in. Then all forests are valid, and what was proved of valid nodes applies.

**Theorems.** A simplified expression holds of the records that the expression holds of, and so do
simplified roots one by one (`simplification_keeps_meaning`). A node that is pruned under some
assumptions holds where it did, on the records that meet the assumptions
(`Session.Reached.pruning_keeps_meaning`). A factored node holds where it did, and so does an OR
from which an overlap is taken out (`Session.Reached.factoring_keeps_meaning`). What is seen to be
implied is implied, and what is seen to be contradictory is contradictory
(`Session.Reached.entailment_sound`).
-/

namespace Criteria

variable {x : Session}

/-! ## Entailment -/

/-- An implication or contradiction that is seen between two usable nodes is one on every record. -/
theorem Session.Reached.entailment_sound (h : x.Reached) {a b : Node} (ha : x.Usable a)
    (hb : x.Usable b) :
    (x.forest.store.implies a b = .ok true →
      ∀ r, x.forest.holds r a = true → x.forest.holds r b = true) ∧
    (x.forest.store.contradicts a b = .ok true →
      ∀ r, ¬ (x.forest.holds r a = true ∧ x.forest.holds r b = true)) := by
  have sound := h.sound
  have valid := sound.forest.store
  constructor
  · intro implies r holds
    exact Store.holds_of_implies valid (sound.validNode ha) (sound.validNode hb) implies holds
  · rintro contradicts r ⟨holds, holds'⟩
    exact Store.not_holds_of_contradicts valid (sound.validNode ha) (sound.validNode hb)
      contradicts holds holds'

/-- The AND implies its member `a = x`, and contradicts `a IS UNKNOWN`. -/
theorem Sample.both_entails :
    session.forest.store.implies both equal = .ok true ∧
    session.forest.store.contradicts both known.flip = .ok true ∧
    session.forest.holds record both = true ∧ session.forest.holds record equal = true ∧
    ¬ session.forest.holds record known.flip = true := by
  have implies : session.forest.store.implies both equal = .ok true := rfl
  have contradicts : session.forest.store.contradicts both known.flip = .ok true := rfl
  have holds : session.forest.holds record both = true := rfl
  have sound := reached.entailment_sound usable_both usable_equal
  have sound' := reached.entailment_sound usable_both usable_unknown
  exact ⟨implies, contradicts, holds, sound.1 implies record holds,
    fun h => sound'.2 contradicts record ⟨holds, h⟩⟩

/-! ## Pruning -/

/-- On the records that meet the assumptions, a pruned node holds where the node did, and without
assumptions on all records. -/
theorem Session.Reached.pruning_keeps_meaning (h : x.Reached) {n : Node} {assumptions : List Node}
    (hn : x.Usable n) (ha : ∀ a ∈ assumptions, x.Usable a) (budget : Budget) :
    (∀ n' g budget', Forest.run (Pass.pruneUnder n assumptions) (x.forest, budget) =
        .ok n' (g, budget') →
      ∀ r, (∀ a ∈ assumptions, x.forest.holds r a = true) →
        g.holds r n' = x.forest.holds r n) ∧
    (∀ n' g budget', Forest.run (Pass.prune n) (x.forest, budget) = .ok n' (g, budget') →
      ∀ r, g.holds r n' = x.forest.holds r n) := by
  have sound := h.sound
  have pruned : ∀ {l : List Node} {n' g budget'}, (∀ a ∈ l, x.Usable a) →
      Forest.run (Pass.pruneUnder n l) (x.forest, budget) = .ok n' (g, budget') →
      ∀ r, (∀ a ∈ l, x.forest.holds r a = true) → g.holds r n' = x.forest.holds r n := by
    intro l n' g budget' hl run r holds
    have means : x.forest.Means r n (x.forest.holds r n) := .of_valid (sound.validNode hn)
    have known : ∀ a ∈ l, x.forest.Means r a true := by
      intro a ha
      exact ⟨sound.validNode (hl a ha), fun _ => holds a ha⟩
    obtain ⟨-, -, same, means'⟩ :=
      (Forest.ensures_run (Pass.ensures_pruneUnder means known)).of_ok sound.forest run
    rw [← means'.holds trivial, ← same]
    rfl
  constructor
  · intro n' g budget' run
    exact pruned ha run
  · intro n' g budget' run r
    exact pruned (l := []) (by simp) run r (by simp)

/-- Under the assumption `a IS NOT UNKNOWN`, and without it, the AND is pruned to `a = x`. -/
theorem Sample.both_pruned :
    Forest.run (Pass.pruneUnder both [known]) (session.forest, .fresh .unlimited) =
      .ok equal (session.forest, ⟨.unlimited, 6⟩) ∧
    Forest.run (Pass.prune both) (session.forest, .fresh .unlimited) =
      .ok equal (session.forest, ⟨.unlimited, 6⟩) ∧
    session.forest.holds record known = true ∧
    session.forest.holds record equal = session.forest.holds record both ∧
    ∀ r, session.forest.holds r equal = session.forest.holds r both := by
  have run : Forest.run (Pass.pruneUnder both [known]) (session.forest, .fresh .unlimited) =
      .ok equal (session.forest, ⟨.unlimited, 6⟩) := rfl
  have run' : Forest.run (Pass.prune both) (session.forest, .fresh .unlimited) =
      .ok equal (session.forest, ⟨.unlimited, 6⟩) := rfl
  have usable : ∀ a ∈ [known], session.Usable a := by
    intro a ha
    rw [List.mem_singleton.1 ha]
    exact usable_known
  have holds : ∀ a ∈ [known], session.forest.holds record a = true := by
    intro a ha
    rw [List.mem_singleton.1 ha]
    rfl
  have sound := reached.pruning_keeps_meaning usable_both usable (.fresh .unlimited)
  have known_holds := holds known (List.mem_singleton_self _)
  exact ⟨run, run', known_holds, sound.1 _ _ _ run record holds, sound.2 _ _ _ run'⟩

/-! ## Factoring -/

/-- A factored node holds where the node did. So does what is made of the members of an OR when any
nodes are taken out of those of them that contain them, whatever is left of these, and whatever
becomes of the OR of what is left. -/
theorem Session.Reached.factoring_keeps_meaning (h : x.Reached) (budget : Budget) :
    (∀ n, x.Usable n → ∀ n' g budget',
      Forest.run (Pass.factor n) (x.forest, budget) = .ok n' (g, budget') →
        ∀ r, g.holds r n' = x.forest.holds r n) ∧
    (∀ ms overlap, (∀ m ∈ ms, x.Usable m) → (∀ m ∈ overlap, x.Usable m) →
      ∀ fuel n' g budget',
        Forest.run (Pass.factorOut (Pass.factorWithin fuel) ms overlap) (x.forest, budget) =
          .ok n' (g, budget') →
        ∀ r, g.holds r n' = ms.any (x.forest.holds r)) := by
  have sound := h.sound
  constructor
  · intro n hn n' g budget' run r
    have means : x.forest.Means r n (x.forest.holds r n) := .of_valid (sound.validNode hn)
    exact Forest.holds_of_run sound.forest (Pass.keeps_factor means) run
  · intro ms overlap hms ho fuel n' g budget' run r
    have joins : Store.Joins x.forest.vocabulary r True x.forest.store .or ms
        (ms.any (x.forest.holds r)) := ⟨fun m hm => sound.validNode (hms m hm), fun _ => rfl⟩
    have valid : ∀ m ∈ overlap, x.forest.store.ValidNode x.forest.vocabulary m :=
      fun m hm => sound.validNode (ho m hm)
    exact Forest.holds_of_run sound.forest
      (Pass.ensures_factorOut (Pass.keeps_factorWithin fuel) joins valid) run

namespace Sample

theorem factorWithin_either (fuel used : Nat) :
    Pass.factorWithin (fuel + 2) either ⟨deepStore, ⟨.unlimited, used⟩⟩ =
      .ok known ⟨deepStore, ⟨.unlimited, used + 10⟩⟩ := by
  have joined := Pass.combine_of_eq_ok ⟨.unlimited, used + 3⟩ (combine_again .or)
  exact bind_eq_of_ok joined

/-- When `a = x` is taken out of the two ANDs, the OR of what is left collapses to a leaf. -/
theorem factorOut_equal : Pass.factorOut (Pass.factorWithin 2) [both, nested] [equal]
    ⟨deepStore, .fresh .unlimited⟩ = .ok both ⟨deepStore, ⟨.unlimited, 10⟩⟩ := by
  have rests : Pass.combine .or [known, either] ⟨deepStore, .fresh .unlimited⟩ =
      .ok either ⟨deepStore, .fresh .unlimited⟩ := Pass.combine_of_eq_ok _ (combine_again .or)
  have factored := Pass.combine_of_eq_ok ⟨.unlimited, 10⟩ (combine_again .and)
  exact (bind_eq_of_ok rests).trans
    ((bind_eq_of_ok (factorWithin_either 0 0)).trans (bind_eq_of_ok factored))

/-- The OR is factored to the weaker of its members, and `a = x` is taken out of the two ANDs. -/
theorem either_factored :
    Forest.run (Pass.factor either) (deep.forest, .fresh .unlimited) =
      .ok known (deep.forest, ⟨.unlimited, 10⟩) ∧
    (∀ r, deep.forest.holds r known = deep.forest.holds r either) ∧
    Forest.run (Pass.factorOut (Pass.factorWithin 2) [both, nested] [equal])
        (deep.forest, .fresh .unlimited) = .ok both (deep.forest, ⟨.unlimited, 10⟩) ∧
    ∀ r, deep.forest.holds r both = [both, nested].any (deep.forest.holds r) := by
  have run : Forest.run (Pass.factor either) (deep.forest, .fresh .unlimited) =
      .ok known (deep.forest, ⟨.unlimited, 10⟩) := Forest.run_eq_ok (factorWithin_either _ 0)
  have run' : Forest.run (Pass.factorOut (Pass.factorWithin 2) [both, nested] [equal])
      (deep.forest, .fresh .unlimited) = .ok both (deep.forest, ⟨.unlimited, 10⟩) :=
    Forest.run_eq_ok factorOut_equal
  have sound := reached_deep.factoring_keeps_meaning (.fresh .unlimited)
  have usable : ∀ m ∈ [both, nested], deep.Usable m := by
    intro m hm
    rcases List.mem_pair.1 hm with rfl | rfl
    · exact usable_deep.2.2
    · exact usable_deep.2.1
  have usable' : ∀ m ∈ [equal], deep.Usable m := by
    intro m hm
    obtain rfl := List.mem_singleton.1 hm
    exact .leaf (Vocabulary.encodes_iff.2 ⟨_, codes_equal⟩)
  exact ⟨run, sound.1 _ usable_deep.1 _ _ _ run, run', sound.2 _ _ usable usable' _ _ _ _ run'⟩

end Sample

/-! ## Simplification -/

/-- A simplified expression holds of the records that the expression holds of. Simplified roots are
as many as the roots, and hold one by one of the records that these hold of. -/
theorem simplification_keeps_meaning :
    (∀ (settings : Settings) (clock : Nat → Nat) (e e' : Expression),
      settings.simplify clock e = .ok e' → ∀ r, e'.holds r = e.holds r) ∧
    (∀ (x : Session), x.Reached → ∀ cleanup housekeeping budget g budget',
      Forest.simplify cleanup housekeeping (x.forest, budget) = .ok () (g, budget') →
        List.Forall₂ (fun n n' => ∀ r, g.holds r n' = x.forest.holds r n)
          x.forest.roots g.roots) := by
  constructor
  · intro settings clock e e' h r
    exact Settings.holds_simplify h r
  · intro x reached cleanup housekeeping budget g budget' run
    obtain ⟨-, means⟩ := Forest.simplify_ok reached.sound.forest run
    have length_eq := (means fun _ => none).length_eq
    refine List.forall₂_iff_get.2 ⟨length_eq, ?_⟩
    intro i hi hi' r
    exact (List.forall₂_iff_get.1 (means r)).2 i hi hi'

namespace Sample

/-- The expression `a = x AND a IS NOT UNKNOWN`. -/
def expression : Expression := .combined .and [.leaf equalLeaf, .leaf knownLeaf]

theorem vocabulary_of_words {e : Expression} (names : e.argumentNames = ["a"])
    (values : e.values = ["x"]) : Vocabulary.ofExpression e = .ok vocabulary := by
  have noName : Vocabulary.empty.names.number? "a" = none := by
    simp [Vocabulary.empty, WordList.number?, WordList.empty]
  have noValue : WordList.empty.number? "x" = none := by simp [WordList.number?, WordList.empty]
  rw [Vocabulary.ofExpression, names, values, Vocabulary.ofLists, Vocabulary.add]
  refine bind_eq_ok_iff.2 ⟨{ vocabulary with values := .empty, values_le := Nat.zero_le _ }, ?_, ?_⟩
  · rw [List.foldlM_cons, Vocabulary.addName_of_new noName (by decide)]
    rfl
  · rw [List.foldlM_cons, Vocabulary.addValue_of_new noValue (by show 0 < 16384; decide)]
    rfl

theorem planted : ∃ t, Forest.ofExpression expression = .ok ⟨t, store, [both]⟩ ∧
    t.Faithful ∧ t.vocabulary = vocabulary := by
  have leaves : Forest.PlantedAll vocabulary (.empty Store.defaultThreshold)
      [.leaf equalLeaf, .leaf knownLeaf] [equal, known] (.empty Store.defaultThreshold) :=
    .cons (.leaf codes_equal) (.cons (.leaf codes_known) .nil)
  exact (Forest.Planted.combined leaves combine_eq).ofExpression (vocabulary_of_words rfl rfl)

/-- The settings that apply unless told otherwise. -/
def settings : Settings := {}

/-- A clock that stands still. -/
def clock : Nat → Nat := fun _ => 0

/-- The AND is simplified to `a = x`, whatever the translator remembers. -/
theorem simplified (t : Translator) :
    Forest.simplify settings.cleanup settings.housekeeping
        (⟨t, store, [both]⟩, settings.budget clock) =
      .ok () (⟨t, store, [equal]⟩, ⟨.deadline settings.milliseconds clock, 8⟩) := by
  have few : store.live ≤ settings.housekeeping := by
    rw [store, Store.live_push]
    decide
  have kept : (Forest.sweepAbove settings.housekeeping ⟨t, store, [both]⟩).2 =
      ⟨t, store, [both]⟩ :=
    Forest.sweepAbove_of_le few
  rw [Forest.simplify_eq, kept]
  rfl

theorem simplify_expression : settings.simplify clock expression = .ok (.leaf equalLeaf) := by
  obtain ⟨t, planted, faithful, same⟩ := planted
  have simplified : settings.simplifyForest clock ⟨t, store, [both]⟩ =
      .ok ⟨t, store, [equal]⟩ := by
    rw [Settings.simplifyForest, simplified t]
  have code := codes_equal
  rw [← same] at code
  obtain ⟨u, run⟩ := Forest.express_of_codes (f := ⟨t, store, [equal]⟩) faithful code
  have expressed : Forest.complete Forest.expressRoot ⟨t, store, [equal]⟩ =
      .ok (.leaf equalLeaf, ⟨u, store, [equal]⟩) := by
    rw [Forest.complete, Forest.expressRoot_eq rfl, run]
  unfold Settings.simplify
  rw [planted]
  refine bind_eq_ok_iff.2 ⟨_, rfl, bind_eq_ok_iff.2 ⟨_, simplified, ?_⟩⟩
  rw [expressed]
  rfl

/-- `a = x AND a IS NOT UNKNOWN` is simplified to `a = x`, as an expression and as a root. -/
theorem simplification_of_both :
    settings.simplify clock expression = .ok (.leaf equalLeaf) ∧
    (∀ r, (Expression.leaf equalLeaf).holds r = expression.holds r) ∧
    Forest.simplify settings.cleanup settings.housekeeping
        (session.forest, settings.budget clock) =
      .ok () ({ session.forest with roots := [equal] },
        ⟨.deadline settings.milliseconds clock, 8⟩) ∧
    List.Forall₂ (fun n n' => ∀ r, session.forest.holds r n' = session.forest.holds r n)
      [both] [equal] := by
  have run := simplified session.forest.translator
  have sound := simplification_keeps_meaning
  refine ⟨simplify_expression, sound.1 _ _ _ _ simplify_expression, run, ?_⟩
  exact sound.2 session reached _ _ _ _ _ run

end Sample

end Criteria
