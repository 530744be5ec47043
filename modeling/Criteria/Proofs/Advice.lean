import Criteria.Proofs.Planting
import Criteria.Proofs.Repetition.Pruning

/-!
# Advice is sound

**Theorem (`Session.Reached.advice_sound`).** There is advice on any two usable nodes, and on every
record it is right about the node that joins them: where one of the two can go, the node holds just
if the other does; where both can go, it is neutral; where it is decided, it has the value that it
is decided to have. Where the two are to be replaced by the known check of either of them, the
connective is OR, and the known check of each holds just where the OR of them does.

Most of this is what `Store.agrees_advise` says of the values of the two. What is left is the known
check, which is built from the left of the two. It can be built from the right one as well, as that
is the negation of the left one and so has the same arguments (`Vocabulary.Encodes.knowsAll_flip`).
-/

namespace Criteria

/-- A leaf code and its flip have the same arguments. -/
theorem Vocabulary.Encodes.knowsAll_flip {v : Vocabulary} {n : Node} (h : v.Encodes n)
    (r : Record) : v.knowsAll r n.flip = v.knowsAll r n := by
  have fields : ∀ {neg ref : Bool} {op : Operator} {a x : Nat}, a < Node.maxNames →
      x < Node.maxValues → let m := Node.leaf neg op ref a x
      v.knowsAll r m.flip = v.knowsAll r m := fun ha hx => by
    simp only [knowsAll, Node.flip_leaf ha hx, Node.argument_leaf ha hx,
      Node.hasReference_leaf ha hx, Node.value_leaf ha hx]
  obtain ⟨l, h⟩ := encodes_iff.1 h
  cases h with
  | check name => exact fields (lt_maxNames name) zero_lt_maxValues
  | value _ name value => exact fields (lt_maxNames name) (lt_maxValues value)
  | reference _ name other => exact fields (lt_maxNames name) (lt_maxValues_of_name other)

namespace Forest

variable {f : Forest} {r : Record} {k : Connective} {a b n : Node} {advice : Advice}

/-- What an advice on two nodes says of the node that joins them, on one record. -/
def Confirms (f : Forest) (r : Record) (k : Connective) (a b : Node) : Advice → Prop
  | .retainBoth => True
  | .removeLeft => k.join (f.holds r) [a, b] = f.holds r b
  | .removeRight => k.join (f.holds r) [a, b] = f.holds r a
  | .removeEither =>
    k.join (f.holds r) [a, b] = f.holds r a ∧ k.join (f.holds r) [a, b] = f.holds r b
  | .removeBoth => k.join (f.holds r) [a, b] = k.unit
  | .alwaysTrue => k.join (f.holds r) [a, b] = true
  | .neverTrue => k.join (f.holds r) [a, b] = false
  | .replaceByKnown => k = .or ∧ ∀ n ∈ [a, b],
    match build (Build.knownCheck n) f with
    | .ok n' g => g.holds r n' = k.join (f.holds r) [a, b]
    | .error fault g => ∃ id, fault = .numberTooLarge id ∧ Node.maxNumber < g.store.size

/-- The known check of a leaf holds where the arguments are known, unless all numbers are issued. -/
theorem holds_knownCheck (hf : f.Valid) (code : f.vocabulary.Encodes n) (r : Record) :
    match build (Build.knownCheck n) f with
    | .ok n' g => g.holds r n' = f.vocabulary.knowsAll r n
    | .error fault g => ∃ id, fault = .numberTooLarge id ∧ Node.maxNumber < g.store.size := by
  have ensures := Store.ensures_knownCheck (s := f.store) (r := r) (c := True) code
  cases run : build (Build.knownCheck n) f with
  | ok n' g => exact ((ensures_build_node ensures).of_ok hf run).2.2.holds
  | error fault g =>
    obtain ⟨-, -, ⟨id, eq⟩, full⟩ := ensures.of_error hf.store (build_eq_error run)
    exact ⟨id, eq, full⟩

/-- What the values of two nodes bear out, the forest confirms. -/
theorem confirms_of_agrees (hf : f.Valid) (ha : f.ValidNode a)
    (advised : f.store.advise k a b = .ok advice)
    (agrees : advice.Agrees k (f.holds r a) (f.holds r b) (f.vocabulary.Encodes a)
      (f.vocabulary.knowsAll r a)) : f.Confirms r k a b advice := by
  have pair : k.join (f.holds r) [a, b] = k.join id [f.holds r a, f.holds r b] := by
    cases k <;> rfl
  cases advice with
  | retainBoth => trivial
  | removeLeft => exact pair.trans agrees
  | removeRight => exact pair.trans agrees
  | removeEither =>
    have same : f.holds r a = f.holds r b := agrees
    have joined : k.join (f.holds r) [a, b] = f.holds r a := by
      rw [pair, ← same, Connective.join_pair_self]
    exact ⟨joined, joined.trans same⟩
  | removeBoth =>
    obtain ⟨left, right⟩ := agrees
    rw [Confirms, pair, left, right, Connective.join_pair_self]
  | alwaysTrue => exact pair.trans agrees.2
  | neverTrue => exact pair.trans agrees.2
  | replaceByKnown =>
    obtain ⟨code, known⟩ := agrees
    obtain ⟨or, -, -, twins⟩ := Store.of_advise_replaceByKnown advised
    refine ⟨or, fun n hn => ?_⟩
    -- Both leaves have the arguments of the left one.
    have same : f.vocabulary.Encodes n ∧
        f.vocabulary.knowsAll r n = f.vocabulary.knowsAll r a := by
      rcases List.mem_pair.1 hn with rfl | rfl
      · exact ⟨code, rfl⟩
      · rw [twins]
        exact ⟨code.flip, code.knowsAll_flip r⟩
    rw [pair, known, ← same.2]
    exact holds_knownCheck hf same.1 r

end Forest

/-- There is advice on any two usable nodes, and every record confirms it. -/
theorem Session.Reached.advice_sound {x : Session} (h : x.Reached) {a b : Node} (ha : x.Usable a)
    (hb : x.Usable b) (k : Connective) :
    ∃ advice, x.forest.store.advise k a b = .ok advice ∧ ∀ r, x.forest.Confirms r k a b advice := by
  have sound := h.sound
  have valid := sound.validNode ha
  have valid' := sound.validNode hb
  obtain ⟨advice, advised⟩ := Store.exists_advise_eq_ok (k := k) sound.forest.store valid valid'
  refine ⟨advice, advised, fun r => ?_⟩
  have agrees := Store.agrees_advise (r := r) sound.forest.store valid valid' advised
  exact Forest.confirms_of_agrees sound.forest valid advised agrees

/-- In an AND, `a IS NOT UNKNOWN` can go next to `a = x`. The OR of `a = x` and its negation holds
where the known check of either does, which is that very `a IS NOT UNKNOWN`. -/
theorem Sample.equal_advised :
    session.forest.store.advise .and equal known = .ok .removeRight ∧
    (∀ r, Connective.and.join (session.forest.holds r) [equal, known] =
      session.forest.holds r equal) ∧
    session.forest.store.advise .or equal equal.flip = .ok .replaceByKnown ∧
    (∀ n ∈ [equal, equal.flip],
      Forest.build (Build.knownCheck n) session.forest = .ok known session.forest) ∧
    ∀ r, session.forest.holds r known =
      Connective.or.join (session.forest.holds r) [equal, equal.flip] := by
  have removed : session.forest.store.advise .and equal known = .ok .removeRight := rfl
  have replaced : session.forest.store.advise .or equal equal.flip = .ok .replaceByKnown := rfl
  have built : ∀ n ∈ [equal, equal.flip],
      Forest.build (Build.knownCheck n) session.forest = .ok known session.forest := by
    intro n hn
    rcases List.mem_pair.1 hn with rfl | rfl <;> rfl
  have usable : session.Usable equal.flip :=
    .leaf (Vocabulary.encodes_iff.2 ⟨_, codes_equal⟩ : vocabulary.Encodes equal).flip
  obtain ⟨advice, advised, confirmed⟩ := reached.advice_sound usable_equal usable_known .and
  cases removed.symm.trans advised
  obtain ⟨advice, advised, confirmed'⟩ := reached.advice_sound usable_equal usable .or
  cases replaced.symm.trans advised
  refine ⟨removed, confirmed, replaced, built, fun r => ?_⟩
  have known_holds := (confirmed' r).2 equal List.mem_cons_self
  rwa [built equal List.mem_cons_self] at known_holds

end Criteria
