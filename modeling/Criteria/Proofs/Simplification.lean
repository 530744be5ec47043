import Criteria.Simplify
import Criteria.Proofs.Distribution
import Criteria.Proofs.Factoring
import Criteria.Proofs.Merge
import Criteria.Proofs.Sweep

/-!
# Simplification is sound

Pruning, distributing and factoring each keep what a node means, so one after the other does
(`Pass.keeps_simplify`). On a forest, roots are replaced by nodes that mean the same, all of them or
none (`mapRoots_ok`, `mapRoots_error`), and what a sweep takes away before is needed by no root.
-/

namespace Criteria

theorem Pass.keeps_simplify {v : Vocabulary} {r : Record} (cleanup : Nat) :
    Keeps v r (simplify cleanup) := by
  intro c w n b h
  refine (keeps_prune h).bind fun n₁ w₁ _ _ h => ?_
  refine (keeps_distribute cleanup h).bind fun n₂ w₂ _ _ h => ?_
  exact keeps_factor h

namespace Forest

variable {f g : Forest} {budget budget' : Budget} {r : Record} {n : Node} {b : Bool} {α : Type}
  {x : Node → Pass Node}

/-! ## Passes on a forest -/

/-- A run grows its forest, and fails when it runs into its limit or out of numbers. -/
def Run.growth : Growth Failure (Forest × Budget) where
  valid s := s.1.Valid
  le s t := s.1.Extends t.1
  fails failure s := ∀ fault, failure = .fault fault → Store.Exhausted fault s.1.store
  refl s := .refl s.1
  trans h h' := h.trans h'

theorem run_eq_ok {x : Pass α} {a : α} {s : Store} (h : x ⟨f.store, budget⟩ = .ok a ⟨s, budget'⟩) :
    run x (f, budget) = .ok a ({ f with store := s }, budget') := by
  obtain ⟨t, store, roots⟩ := f
  simp only [run, show x ⟨store, budget⟩ = _ from h]

theorem ensures_run {x : Pass α} {Q : α → Work → Prop}
    (h : (Work.growth f.vocabulary).Ensures x ⟨f.store, budget⟩ Q) :
    Run.growth.Ensures (run x) (f, budget) fun a s =>
      s.1.vocabulary = f.vocabulary ∧ Q a ⟨s.1.store, s.2⟩ := by
  obtain ⟨t, s, roots⟩ := f
  refine h.lift (fun w => (⟨t, w.store, roots⟩, w.budget)) id ?_ (fun hf => Valid.store hf)
    (fun hf w valid le => ?_) (fun _ _ _ exhausted => ?_) (fun _ _ _ _ hQ => ⟨rfl, hQ⟩)
  · simp only [run]
    cases x ⟨s, budget⟩ <;> rfl
  · have hf : Valid ⟨t, s, roots⟩ := hf
    exact ⟨⟨valid, hf.translator, fun n hn => (hf.roots n hn).mono le⟩, rfl, le, rfl⟩
  · exact exhausted

/-- A run that gives an answer has the answer and the store of its pass. -/
theorem pass_eq_ok_of_run {x : Pass α} {a : α} (h : run x (f, budget) = .ok a (g, budget')) :
    x ⟨f.store, budget⟩ = .ok a ⟨g.store, budget'⟩ := by
  obtain ⟨t, s, roots⟩ := f
  simp only [run] at h
  split at h
  · next eq =>
    cases h
    exact eq
  · cases h

/-- What a pass ensures of its answer and its store holds after the run. -/
theorem of_run_eq_ok {g' : Growth Fault Store} {x : Pass α} {a : α} {Q : α → Work → Prop}
    (h : (Work.lift g').Ensures x ⟨f.store, budget⟩ Q) (hf : g'.valid f.store)
    (run : run x (f, budget) = .ok a (g, budget')) : Q a ⟨g.store, budget'⟩ :=
  (h.of_ok hf (pass_eq_ok_of_run run)).2.2

theorem run_eq_error {x : Pass α} {failure : Failure} {s : Store}
    (h : x ⟨f.store, budget⟩ = .error failure ⟨s, budget'⟩) :
    run x (f, budget) = .error failure ({ f with store := s }, budget') := by
  obtain ⟨t, store, roots⟩ := f
  simp only [run, show x ⟨store, budget⟩ = _ from h]

/-- A run that fails leaves all but the store as it was. -/
theorem eq_of_run_eq_error {x : Pass α} {failure : Failure}
    (h : run x (f, budget) = .error failure (g, budget')) : g = { f with store := g.store } := by
  obtain ⟨t, s, roots⟩ := f
  simp only [run] at h
  split at h
  · cases h
  · cases h
    rfl

/-- A node that is returned has in the forest that is left the value that was ensured. -/
theorem holds_of_run {x : Pass Node} {n' : Node} (hf : f.Valid)
    (h : (Work.growth f.vocabulary).Ensures x ⟨f.store, budget⟩ fun n' w =>
      Store.Means f.vocabulary r True w.store n' b)
    (run : run x (f, budget) = .ok n' (g, budget')) : g.holds r n' = b := by
  obtain ⟨-, -, same, means⟩ := (ensures_run h).of_ok hf run
  rw [← means.holds trivial, ← same]
  rfl

theorem mapRoots_eq (x : Node → Pass Node) (f : Forest) (budget : Budget) :
    mapRoots x (f, budget) = match run (f.roots.mapM x) (f, budget) with
      | .ok roots (g, budget) => .ok () ({ g with roots }, budget)
      | .error failure s => .error failure s := by
  show EStateM.bind (run (f.roots.mapM x)) _ (f, budget) = _
  unfold EStateM.bind
  cases run (f.roots.mapM x) (f, budget) <;> rfl

theorem mapRoots_eq_error_iff {failure : Failure} {s : Forest × Budget} :
    mapRoots x (f, budget) = .error failure s ↔
      run (f.roots.mapM x) (f, budget) = .error failure s := by
  rw [mapRoots_eq]
  cases run (f.roots.mapM x) (f, budget) with
  | ok roots s => simp
  | error failure s => simp

theorem simplify_eq (cleanup housekeeping : Nat) (f : Forest) (budget : Budget) :
    simplify cleanup housekeeping (f, budget) =
      mapRoots (Pass.simplify cleanup) ((f.sweepAbove housekeeping).2, budget) := rfl

section MapRoots

variable (hx : ∀ r, Pass.Keeps f.vocabulary r x) (hf : f.Valid)
include hx hf

theorem ensures_mapM_roots (r : Record) (budget : Budget) :
    Run.growth.Ensures (run (f.roots.mapM x)) (f, budget) fun ns s =>
      s.1.vocabulary = f.vocabulary ∧ List.Forall₂ (fun n n' =>
        Store.Means f.vocabulary r True s.1.store n' (f.holds r n)) f.roots ns := by
  have each : (Work.growth f.vocabulary).Ensures (f.roots.mapM x) ⟨f.store, budget⟩ fun ns w =>
      List.Forall₂ (fun n n' => Store.Means f.vocabulary r True w.store n' (f.holds r n))
        f.roots ns :=
    .mapM (P := fun n w => Store.Means f.vocabulary r True (Work.store w) n (f.holds r n))
      (fun _ _ _ hs le h => Store.Means.stable hs le h)
      (fun _ _ _ _ hs le h => Store.Means.stable hs le h) (fun n _ w h => hx r h)
      fun n hn => .of_valid (hf.roots n hn)
  exact ensures_run each

/-- New roots are valid and mean one by one what the old ones do. -/
theorem mapRoots_ok (h : mapRoots x (f, budget) = .ok () (g, budget')) :
    g.Valid ∧ g.vocabulary = f.vocabulary ∧ f.store.Extends g.store ∧
      ∀ r, List.Forall₂ (fun n n' => g.holds r n' = f.holds r n) f.roots g.roots := by
  rw [mapRoots_eq] at h
  split at h
  · next ns g' budget'' run =>
    cases h
    have done := fun r => (ensures_mapM_roots hx hf r budget).of_ok hf run
    obtain ⟨valid, le, same, means⟩ := done fun _ => none
    refine ⟨Valid.withRoots valid fun n' hn' => ?_, same, le.store, fun r => ?_⟩
    · obtain ⟨n, -, h⟩ := exists_of_mem_forall₂ means hn'
      unfold ValidNode
      rw [show g'.vocabulary = f.vocabulary from same]
      exact h.valid
    · refine (done r).2.2.2.imp fun n n' h => ?_
      rw [← h.holds trivial, ← same]
      rfl
  · cases h

/-- After a failure the roots are what they were, and it is no fault unless no number is left. -/
theorem mapRoots_error {failure : Failure}
    (h : mapRoots x (f, budget) = .error failure (g, budget')) :
    g.Valid ∧ f.Extends g ∧ ∀ fault, failure = .fault fault → Store.Exhausted fault g.store := by
  exact (ensures_mapM_roots hx hf (fun _ => none) budget).of_error hf (mapRoots_eq_error_iff.1 h)

end MapRoots

/-! ## Simplifying -/

theorem Valid.sweepAbove (hf : f.Valid) (threshold : Nat) : (f.sweepAbove threshold).2.Valid := by
  rcases sweepAbove_cases f threshold with eq | eq
  · rw [eq]
    exact hf
  · rw [eq]
    exact hf.sweep

theorem holds_sweepAbove (hf : f.Valid) (threshold : Nat) (hn : n ∈ f.roots) (r : Record) :
    (f.sweepAbove threshold).2.holds r n = f.holds r n := by
  rcases sweepAbove_cases f threshold with eq | eq
  · rw [eq]
  · rw [eq, holds_sweep hf hn]

theorem roots_sweepAbove (f : Forest) (threshold : Nat) :
    (f.sweepAbove threshold).2.roots = f.roots := by
  rcases sweepAbove_cases f threshold with eq | eq
  · rw [eq]
  · rw [eq]
    rfl

/-- Simplified roots mean one by one what the roots do. -/
theorem simplify_ok {cleanup housekeeping : Nat} (hf : f.Valid)
    (h : simplify cleanup housekeeping (f, budget) = .ok () (g, budget')) :
    g.Valid ∧ ∀ r, List.Forall₂ (fun n n' => g.holds r n' = f.holds r n) f.roots g.roots := by
  rw [simplify_eq] at h
  obtain ⟨valid, -, -, means⟩ :=
    mapRoots_ok (fun r => Pass.keeps_simplify cleanup) (hf.sweepAbove housekeeping) h
  refine ⟨valid, fun r => ?_⟩
  have means := means r
  rw [roots_sweepAbove] at means
  exact forall₂_imp_of_mem means fun n hn n' eq =>
    eq.trans (holds_sweepAbove hf housekeeping hn r)

theorem expressRoot_eq {ns : List Node} (roots : f.roots = n :: ns) :
    expressRoot f = express n f := by
  show EStateM.bind (ofExcept f.root) express f = _
  rw [show f.root = .ok n by rw [root, roots]]
  rfl

/-- The root of a valid forest is always read back. -/
theorem exists_expressRoot {ns : List Node} (hf : f.Valid) (roots : f.roots = n :: ns) :
    ∃ t, complete expressRoot f = .ok (f.spell n, { f with translator := t }) := by
  obtain ⟨t, read, -⟩ := exists_express hf (hf.roots n (by rw [roots]; exact List.mem_cons_self))
  exact ⟨t, by rw [complete, expressRoot_eq roots, read]⟩

end Forest

/-! ## Expressions -/

namespace Settings

variable {settings : Settings} {clock : Nat → Nat} {f g : Forest}

theorem orFail_eq_ok {α : Type} {x : Except Fault α} {a : α} (h : orFail x = .ok a) : x = .ok a := by
  cases x with
  | ok a => cases h; rfl
  | error fault => cases h

theorem simplifyForest_ok (hf : f.Valid) (h : settings.simplifyForest clock f = .ok g) :
    g.Valid ∧ ∀ r, List.Forall₂ (fun n n' => g.holds r n' = f.holds r n) f.roots g.roots := by
  unfold simplifyForest at h
  split at h
  · next run =>
    cases h
    exact Forest.simplify_ok hf run
  · cases h

/-- The expression of the first root means what the root does. -/
theorem holds_expressRoot {e : Expression} {n : Node} {ns : List Node} (hf : f.Valid)
    (roots : f.roots = n :: ns) (h : Forest.complete Forest.expressRoot f = .ok (e, g))
    (r : Record) : e.holds r = f.holds r n := by
  have run := Forest.complete_eq_ok h
  have valid : f.ValidNode n := hf.roots n (by rw [roots]; exact List.mem_cons_self)
  rw [Forest.expressRoot_eq roots] at run
  exact ((Forest.ensures_express (r := r) valid).of_ok hf run).2.2

/-- A simplified expression means what the expression does. -/
theorem holds_simplify {e e' : Expression} (h : settings.simplify clock e = .ok e') (r : Record) :
    e'.holds r = e.holds r := by
  unfold simplify at h
  obtain ⟨f, hf, h⟩ := bind_eq_ok_iff.1 h
  obtain ⟨g, hg, h⟩ := bind_eq_ok_iff.1 h
  obtain ⟨⟨e'', g'⟩, hexpr, h⟩ := bind_eq_ok_iff.1 h
  cases h
  obtain ⟨valid, n, roots, means⟩ := Forest.valid_ofExpression (orFail_eq_ok hf)
  obtain ⟨valid', each⟩ := simplifyForest_ok valid hg
  have each := each r
  rw [roots] at each
  obtain ⟨n', ns', eq, rest, roots'⟩ := List.forall₂_cons_left_iff.1 each
  rw [holds_expressRoot valid' roots' (orFail_eq_ok hexpr) r, eq, means r]

end Settings

end Criteria
