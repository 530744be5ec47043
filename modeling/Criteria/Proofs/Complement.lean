import Criteria.Proofs.Planting

/-!
# The complement is exact

**Theorem (`Session.Reached.complement_exact`).** The complement of a usable node, if it is built,
holds on just the records that the node does not hold on. The complement of that one, if it is
built, is equivalent to the node that one started from. Neither fails as long as there are numbers
for new lists.

A leaf that compares values does not hold where an argument is unknown, and its negation does not
hold there either. So the complement of a leaf is more than its negation: it holds where one of the
arguments is unknown as well (`Store.ensures_complementOfLeaf`). From the leaves up it is De Morgan
(`Connective.join_dual`), and joining keeps the value that the members have together, whatever is
lifted, merged or decided on the way (`Store.ensures_combine`).

Building only adds lists, so the node that one started from keeps its values in the forest in which
its complement is read. That is what lets the same lemma be used for both complements.
-/

namespace Criteria

namespace Forest

variable {f g : Forest} {n c : Node} {fault : Fault}

/-- A later forest and a valid node in it that holds on just the records that `n` does not hold on,
while `n` still holds on the same ones. -/
structure Complements (f : Forest) (n : Node) (g : Forest) (c : Node) : Prop where
  valid : g.Valid
  follows : f.Extends g
  validNode : g.ValidNode c
  holds_complement : ∀ r, g.holds r c = !g.holds r n
  holds_same : ∀ r, g.holds r n = f.holds r n

theorem Extends.holds (le : f.Extends g) (hf : f.Valid) (hn : f.ValidNode n) (r : Record) :
    g.holds r n = f.holds r n :=
  (Means.stable hf le (Store.Means.of_valid hn)).holds

theorem complements_of_build (hf : f.Valid) (hn : f.ValidNode n)
    (run : build (Build.complement n) f = .ok c g) : f.Complements n g c := by
  have ensures : ∀ r, growth.Ensures (build (Build.complement n)) f fun c g =>
      g.Means r c (!f.holds r n) := fun r =>
    ensures_build_node (Store.ensures_complement (.of_valid hn))
  obtain ⟨valid, le, means⟩ := (ensures fun _ => none).of_ok hf run
  refine ⟨valid, le, means.valid, fun r => ?_, le.holds hf hn⟩
  rw [le.holds hf hn]
  exact ((ensures r).of_ok hf run).2.2.holds

theorem exhausted_of_build_complement (hf : f.Valid) (hn : f.ValidNode n)
    (run : build (Build.complement n) f = .error fault g) : Store.Exhausted fault g.store := by
  have ensures := Store.ensures_complement (.of_valid hn : Store.Means f.vocabulary (fun _ => none)
    True f.store n _)
  exact (ensures.of_error hf.store (build_eq_error run)).2.2

/-- Complementing twice comes back to the records that one started from. -/
theorem Complements.twice {h : Forest} {c' : Node} (first : f.Complements n g c)
    (second : g.Complements c h c') (hn : g.ValidNode n) (r : Record) :
    h.holds r c' = h.holds r n := by
  rw [second.holds_complement, second.holds_same, first.holds_complement, Bool.not_not,
    second.follows.holds first.valid hn]

end Forest

/-- **The complement of a usable node is exact**, and complementing twice gives a node equivalent to
the one that one started from. -/
theorem Session.Reached.complement_exact {x : Session} {n : Node} (h : x.Reached)
    (hn : x.Usable n) :
    match Forest.build (Build.complement n) x.forest with
    | .error fault f => Store.Exhausted fault f.store
    | .ok c f => x.forest.Complements n f c ∧
      match Forest.build (Build.complement c) f with
      | .error fault g => Store.Exhausted fault g.store
      | .ok c' g => f.Complements c g c' ∧ ∀ r, g.holds r c' = g.holds r n := by
  have valid := h.sound.forest
  have validNode := h.sound.validNode hn
  cases run : Forest.build (Build.complement n) x.forest with
  | error fault f => exact Forest.exhausted_of_build_complement valid validNode run
  | ok c f =>
    have first := Forest.complements_of_build valid validNode run
    refine ⟨first, ?_⟩
    cases run' : Forest.build (Build.complement c) f with
    | error fault g =>
      exact Forest.exhausted_of_build_complement first.valid first.validNode run'
    | ok c' g =>
      have second := Forest.complements_of_build first.valid first.validNode run'
      exact ⟨second, first.twice second (Forest.validNode_of_extends first.follows validNode)⟩

namespace Sample

/-- The store with the list of `STRICT NOT a = x OR a IS UNKNOWN` besides. -/
def missedStore : Store := store.push [equal.flip, known.flip] (Store.find?_eq_none (by decide))

/-- The store with the list of `a = x OR a IS UNKNOWN` besides. -/
def waivedStore : Store :=
  missedStore.push [equal, known.flip] (Store.find?_eq_none (by decide))

/-- The store with the list of the AND of that with `a IS NOT UNKNOWN` besides. -/
def restoredStore : Store :=
  waivedStore.push [known, .combined .or 2] (Store.find?_eq_none (by decide))

/-- The forest in which the complement of `a = x` was built. -/
def missed : Forest := { session.forest with store := missedStore }

/-- The forest in which the complement of that was built, too. -/
def restored : Forest := { session.forest with store := restoredStore }

/-- The complement of `a = x` is `STRICT NOT a = x OR a IS UNKNOWN`. The complement of that is
`(a = x OR a IS UNKNOWN) AND a IS NOT UNKNOWN`, which is another node than `a = x` and holds on the
same records. -/
theorem equal_complemented :
    Forest.build (Build.complement equal) session.forest = .ok (.combined .or 1) missed ∧
    Forest.build (Build.complement (.combined .or 1)) missed = .ok (.combined .and 3) restored ∧
    (∀ r, missed.holds r (.combined .or 1) = !missed.holds r equal) ∧
    ∀ r, restored.holds r (.combined .and 3) = restored.holds r equal := by
  have first : Forest.build (Build.complement equal) session.forest =
      .ok (.combined .or 1) missed := by
    have joined : store.combine .or [equal.flip, known.flip] = .ok (.combined .or 1, missedStore) :=
      Store.combine_of_new (by rfl) (by decide) (by decide) (by decide)
    refine Forest.build_eq_ok ?_
    show Build.combine .or [equal.flip, known.flip] store = _
    rw [Build.combine, joined]
  have second : Forest.build (Build.complement (.combined .or 1)) missed =
      .ok (.combined .and 3) restored := by
    have joined : missedStore.combine .or [equal, known.flip] =
        .ok (.combined .or 2, waivedStore) :=
      Store.combine_of_new (by rfl) (by decide) (by decide) (by decide)
    have joined' : waivedStore.combine .and [.combined .or 2, known] =
        .ok (.combined .and 3, restoredStore) :=
      Store.combine_of_new (by rfl) (by decide) (by decide) (by decide)
    have leaf : Build.complementWithin (Node.maxNumber + 2) equal.flip missedStore =
        .ok (.combined .or 2) waivedStore := by
      show Build.combine .or [equal, known.flip] missedStore = _
      rw [Build.combine, joined]
    have members : [equal.flip, known.flip].mapM (Build.complementWithin (Node.maxNumber + 2))
        missedStore = .ok [.combined .or 2, known] waivedStore := mapM_cons_of_ok leaf rfl
    refine Forest.build_eq_ok ?_
    show (do
      let ms ← [equal.flip, known.flip].mapM (Build.complementWithin (Node.maxNumber + 2))
      Build.combine .and ms) missedStore = _
    rw [bind_eq_of_ok members, Build.combine, joined']
  have exact := reached.complement_exact usable_equal
  rw [first] at exact
  obtain ⟨complements, twice⟩ := exact
  rw [second] at twice
  exact ⟨first, second, complements.holds_complement, twice.2⟩

end Sample

end Criteria
