import Criteria.Proofs.Transparency

/-!
# Failed runs leave nothing to repair

**Theorem (`Session.Reached.failure_atomic`).** A run over the roots that fails, at whatever check
and on whatever root, leaves the roots, the words and the threshold as they were. Every root is read
back as the expression that it was, and a later run that has enough time gives roots that mean what
the old ones did, unless no number is left.

A sweep takes away lists that no root needs, and passes add lists. So the forest from which the
passes set out (`Revision.prepare`) is a part both of the forest before and of the forest after,
with the same roots, and in a part of a forest nodes mean and read back as what they do in the whole
(`PartOf.holds_eq`, `PartOf.exists_express`). That the later run succeeds has two reasons: a pass on
valid nodes fails with no fault but that the numbers have run out (`Run.growth`), and a limit that
does not stop a run makes no difference to it (`Transparent`).
-/

namespace Criteria

/-! ## Parts of a forest -/

namespace Forest

variable {f g : Forest} {n : Node}

/-- All lists of `f` are in `g`, and all else is the same. -/
structure PartOf (f g : Forest) : Prop where
  translator_eq : g.translator = f.translator
  roots_eq : g.roots = f.roots
  threshold_eq : g.store.threshold = f.store.threshold
  size_le : f.store.size ≤ g.store.size
  list?_of : ∀ {id l}, f.store.list? id = some l → g.store.list? id = some l

namespace PartOf

theorem refl (f : Forest) : f.PartOf f := ⟨rfl, rfl, rfl, Nat.le_refl _, fun h => h⟩

/-- What is left after a sweep is a part of what was there. -/
theorem sweep (f : Forest) : f.sweep.2.PartOf f where
  translator_eq := rfl
  roots_eq := rfl
  threshold_eq := Store.threshold_sweep.symm
  size_le := Nat.le_of_eq Store.size_sweep
  list?_of h := (Store.list?_of_sweep h).2

theorem sweepAbove (f : Forest) (threshold : Nat) : (f.sweepAbove threshold).2.PartOf f := by
  rcases sweepAbove_cases f threshold with eq | eq
  · rw [eq]
    exact .refl f
  · rw [eq]
    exact .sweep f

theorem of_extends (le : f.Extends g) (eq : g = { f with store := g.store }) : f.PartOf g where
  translator_eq := by rw [eq]
  roots_eq := le.roots_eq
  threshold_eq := le.store.threshold_eq
  size_le := le.store.size_le
  list?_of := le.store.list?

theorem holds_eq (h : f.PartOf g) (hf : f.Valid) (hn : f.ValidNode n) (r : Record) :
    g.holds r n = f.holds r n := by
  have same : g.vocabulary = f.vocabulary := congrArg Translator.vocabulary h.translator_eq
  show g.store.holds (g.vocabulary.holds r) n = _
  rw [same]
  exact Store.holds_of_list? hf.store (fun _ _ => rfl) h.list?_of hn

/-- A valid node is read back, and from all forests that have `f` as a part as the same
expression. -/
theorem exists_express (hf : f.Valid) (hn : f.ValidNode n) :
    ∃ e t, ∀ g, f.PartOf g → express n g = .ok e { g with translator := t } := by
  let enough := f.store.size + 2
  have deep : n.level < enough := by
    have := hn.level_le
    omega
  have read : (Translator.growth fun _ => False).Ensures (expressWithin f.store enough n)
      f.translator _ := ensures_expressWithin rfl hf.store hn deep
  obtain ⟨e, t, run, -⟩ := read.exists_ok hf.translator fun _ _ => id
  refine ⟨e, t, fun g part => translate_eq_ok ?_⟩
  have deep' : n.level < g.store.size + 2 := by
    have := part.size_le
    omega
  rw [expressWithin_of_list? hf.store part.list?_of hn deep deep', part.translator_eq]
  exact run

end PartOf

end Forest

/-! ## Runs over the roots -/

/-- The runs that give a forest new roots: a pass, or a sweep and all passes. -/
inductive Revision where
  | rewrite (x : Rewriting)
  | simplify (cleanup housekeeping : Nat)

namespace Revision

variable {f g : Forest} {budget budget' : Budget} {r : Record}

/-- Gives a forest new roots. -/
def run : Revision → Forest.Run Unit
  | rewrite x => Forest.mapRoots x.pass
  | simplify cleanup housekeeping => Forest.simplify cleanup housekeeping

/-- The pass that makes a new root of an old one. -/
def pass : Revision → Node → Pass Node
  | rewrite x => x.pass
  | simplify cleanup _ => Pass.simplify cleanup

/-- The forest that the pass sets out from. -/
def prepare : Revision → Forest → Forest
  | rewrite _, f => f
  | simplify _ housekeeping, f => (f.sweepAbove housekeeping).2

theorem run_eq (z : Revision) (f : Forest) (budget : Budget) :
    z.run (f, budget) = Forest.mapRoots z.pass (z.prepare f, budget) := by
  cases z with
  | rewrite x => rfl
  | simplify cleanup housekeeping => exact Forest.simplify_eq cleanup housekeeping f budget

theorem keeps_pass {v : Vocabulary} (z : Revision) : Pass.Keeps v r z.pass := by
  cases z with
  | rewrite x => exact x.keeps_pass
  | simplify cleanup housekeeping => exact Pass.keeps_simplify cleanup

theorem transparent_run (z : Revision) : Transparent Prod.mk z.run := by
  cases z with
  | rewrite x => exact Forest.transparent_mapRoots x.composed_pass
  | simplify cleanup housekeeping => exact Forest.transparent_simplify cleanup housekeeping

theorem valid_prepare (z : Revision) (hf : f.Valid) : (z.prepare f).Valid := by
  cases z with
  | rewrite x => exact hf
  | simplify cleanup housekeeping => exact hf.sweepAbove housekeeping

theorem partOf_prepare (z : Revision) (f : Forest) : (z.prepare f).PartOf f := by
  cases z with
  | rewrite x => exact .refl f
  | simplify cleanup housekeeping => exact .sweepAbove f housekeeping

/-- A failed run has added to the forest that it set out from, and it has failed with no fault
unless no number was left. -/
theorem run_error {z : Revision} {failure : Failure} (hf : f.Valid)
    (h : z.run (f, budget) = .error failure (g, budget')) :
    g.Valid ∧ (z.prepare f).PartOf g ∧
      ∀ fault, failure = .fault fault → Store.Exhausted fault g.store := by
  rw [run_eq] at h
  obtain ⟨valid, le, fault⟩ :=
    Forest.mapRoots_error (fun _ => z.keeps_pass) (z.valid_prepare hf) h
  have frame := Forest.eq_of_run_eq_error (Forest.mapRoots_eq_error_iff.1 h)
  exact ⟨valid, .of_extends le frame, fault⟩

/-- New roots mean one by one what the old ones do. -/
theorem run_ok {z : Revision} (hf : f.Valid) (h : z.run (f, budget) = .ok () (g, budget'))
    (r : Record) : List.Forall₂ (fun n n' => g.holds r n' = f.holds r n) f.roots g.roots := by
  cases z with
  | rewrite x => exact (Forest.mapRoots_ok (fun _ => x.keeps_pass) hf h).2.2.2 r
  | simplify cleanup housekeeping => exact (Forest.simplify_ok hf h).2 r

/-- A run that is not stopped gives new roots, unless no number is left. -/
theorem exists_enough (z : Revision) (hf : f.Valid) (used : Nat) :
    ∃ enough, ∀ limit : Limit, limit.Passes used enough →
      (∃ g budget, z.run (f, ⟨limit, used⟩) = .ok () (g, budget)) ∨
        ∃ id g budget, z.run (f, ⟨limit, used⟩) = .error (.fault (.numberTooLarge id)) (g, budget) ∧
          Node.maxNumber < g.store.size := by
  obtain ⟨out, g, enough, -, notOverrun, unlimited, limited⟩ := z.transparent_run f used
  refine ⟨enough, fun limit passes => ?_⟩
  have run := (limited limit).1 passes
  rcases out with (fault | o) | ⟨⟩
  · obtain ⟨⟨id, rfl⟩, full⟩ := (z.run_error hf unlimited).2.2 fault rfl
    exact .inr ⟨id, g, _, run, full⟩
  · exact (notOverrun o rfl).elim
  · exact .inl ⟨g, _, run⟩

end Revision

/-! ## Failures -/

/-- A failed run over the roots leaves them, the translator and the threshold as they were, and
every root is read back as before. Any later run to which its limit leaves enough checks gives roots
that hold one by one of the records that the old ones hold of, unless all numbers are issued. -/
theorem Session.Reached.failure_atomic {x : Session} (h : x.Reached) (y : Revision)
    {budget budget' : Budget} {failure : Failure} {g : Forest}
    (failed : y.run (x.forest, budget) = .error failure (g, budget')) :
    g.roots = x.forest.roots ∧
    g.translator = x.forest.translator ∧
    g.store.threshold = x.forest.store.threshold ∧
    (∀ n ∈ x.forest.roots, ∃ e t,
      Forest.express n x.forest = .ok e { x.forest with translator := t } ∧
      Forest.express n g = .ok e { g with translator := t }) ∧
    ∀ (z : Revision) (used : Nat), ∃ enough, ∀ limit : Limit, limit.Passes used enough →
      (∃ g' budget', z.run (g, ⟨limit, used⟩) = .ok () (g', budget') ∧
        ∀ r, List.Forall₂ (fun n n' => g'.holds r n' = x.forest.holds r n)
          x.forest.roots g'.roots) ∨
      ∃ id g' budget',
        z.run (g, ⟨limit, used⟩) = .error (.fault (.numberTooLarge id)) (g', budget') ∧
        Node.maxNumber < g'.store.size := by
  have hf := h.sound.forest
  -- What the pass set out from is a part of both forests, so all is carried over through it.
  obtain ⟨hg, after, -⟩ := Revision.run_error hf failed
  have before := y.partOf_prepare x.forest
  have valid := y.valid_prepare hf
  have roots : g.roots = x.forest.roots := after.roots_eq.trans before.roots_eq.symm
  have root : ∀ n ∈ x.forest.roots, (y.prepare x.forest).ValidNode n := fun n hn =>
    valid.roots n (before.roots_eq ▸ hn)
  refine ⟨roots, after.translator_eq.trans before.translator_eq.symm,
    after.threshold_eq.trans before.threshold_eq.symm, fun n hn => ?_, fun z used => ?_⟩
  · obtain ⟨e, t, express⟩ := Forest.PartOf.exists_express valid (root n hn)
    exact ⟨e, t, express _ before, express _ after⟩
  · obtain ⟨enough, ends⟩ := z.exists_enough hg used
    refine ⟨enough, fun limit passes => ?_⟩
    rcases ends limit passes with ⟨g', budget', run⟩ | full
    · refine .inl ⟨g', budget', run, fun r => ?_⟩
      have means := z.run_ok hg run r
      rw [roots] at means
      refine forall₂_imp_of_mem means fun n hn n' eq => ?_
      rw [eq, after.holds_eq valid (root n hn), before.holds_eq valid (root n hn)]
    · exact .inr full

namespace Sample

/-- With no time for a single check, simplification stops at the AND. -/
theorem simplify_both_fails (s : Store) :
    Pass.simplify 0 both ⟨s, .fresh (.steps 0)⟩ =
      .error (.overrun (.steps 0)) ⟨s, .fresh (.steps 0)⟩ := by
  have positive : 0 < s.effort both := Nat.lt_of_lt_of_le (by decide) (Nat.le_add_right _ _)
  obtain ⟨fuel, eq⟩ := Nat.exists_eq_add_one.2 positive
  have pruned : Pass.prune both ⟨s, .fresh (.steps 0)⟩ =
      .error (.overrun (.steps 0)) ⟨s, .fresh (.steps 0)⟩ := by
    show Pass.pruneWithin (s.effort both) both [] ⟨s, .fresh (.steps 0)⟩ = _
    rw [eq]
    rfl
  exact bind_eq_of_error pruned

/-- The AND is the only root, so the sweep takes the list of the nested node away, and after it
there is no time left. The AND is read back as before and can be simplified later. -/
theorem deep_swept :
    (Revision.simplify 0 1).run (deep.forest, .fresh (.steps 0)) =
      .error (.overrun (.steps 0)) (deep.forest.sweep.2, .fresh (.steps 0)) ∧
    deep.forest.sweep.2.roots = [both] ∧
    deep.forest.sweep.2.translator = .ofVocabulary vocabulary ∧
    deep.forest.sweep.2.store.threshold = Store.defaultThreshold ∧
    (∃ e t, Forest.express both deep.forest = .ok e { deep.forest with translator := t } ∧
      Forest.express both deep.forest.sweep.2 =
        .ok e { deep.forest.sweep.2 with translator := t }) ∧
    ((∃ g budget, (Revision.simplify 0 1).run (deep.forest.sweep.2, .fresh .unlimited) =
        .ok () (g, budget) ∧
        ∀ r, List.Forall₂ (fun n n' => g.holds r n' = deep.forest.holds r n) [both] g.roots) ∨
      ∃ id g budget, (Revision.simplify 0 1).run (deep.forest.sweep.2, .fresh .unlimited) =
        .error (.fault (.numberTooLarge id)) (g, budget) ∧ Node.maxNumber < g.store.size) := by
  have run : (Revision.simplify 0 1).run (deep.forest, .fresh (.steps 0)) =
      .error (.overrun (.steps 0)) (deep.forest.sweep.2, .fresh (.steps 0)) := by
    have many : 1 < deepStore.live := by
      rw [deepStore, Store.live_push, store, Store.live_push]
      omega
    have swept : (Revision.simplify 0 1).prepare deep.forest = deep.forest.sweep.2 :=
      Forest.sweepAbove_of_lt many
    have fails : [both].mapM (Pass.simplify 0) ⟨deep.forest.sweep.2.store, .fresh (.steps 0)⟩ =
        .error (.overrun (.steps 0)) ⟨deep.forest.sweep.2.store, .fresh (.steps 0)⟩ := by
      rw [List.mapM_cons]
      exact bind_eq_of_error (simplify_both_fails _)
    rw [Revision.run_eq, swept, Forest.mapRoots_eq_error_iff]
    exact Forest.run_eq_error fails
  obtain ⟨roots, translator, threshold, express, later⟩ := reached_deep.failure_atomic _ run
  obtain ⟨enough, ends⟩ := later (.simplify 0 1) 0
  exact ⟨run, roots, translator, threshold, express both (List.mem_singleton_self _),
    ends .unlimited fun _ _ _ => rfl⟩

end Sample

end Criteria
