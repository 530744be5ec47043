import Criteria.Proofs.Planting
import Criteria.Proofs.Soundness

/-!
# Construction

**Theorem (`Session.Reached.construction_keeps_meaning`).** In a session in which only usable nodes
were handed in, the node that joins usable nodes holds of the records that the AND or OR of them
holds of, and an expression of well-formed leaves over the vocabulary, however it nests, is planted
and read back as an expression that means the same. Either fails only when all numbers are issued.

**Theorem (`Session.Reached.construction_canonical`).** Expressions that say the same in other words
are planted as the same node, one after the other in the same forest.

The node of an expression has the shape of the expression (`ensures_encode_shape`), which other
words do not change, and a forest has one node of each shape (`encode_eq_iff`).
-/

namespace Criteria

namespace Forest

variable {f g h : Forest} {e e' : Expression} {n n' : Node} {r : Record}

/-! ## Planting shapes -/

mutual

/-- The node of an expression has the shape of the expression. -/
theorem ensures_encode_shape (e : Expression) (f : Forest) :
    growth.Ensures (encode e) f fun n g => g.Has n e.shape := by
  match e with
  | .constant c =>
    rw [encode, Expression.shape]
    exact .pure fun _ => .ofConstant c
  | .leaf l =>
    rw [encode, Expression.shape]
    exact (ensures_translate Translator.ensures_encodeLeaf).mono fun n g _ _ code => .of_codes code
  | .combined k es =>
    rw [encode, Expression.shape]
    refine (ensures_encodeAll_shape es f).bind fun ns g _ _ each => ?_
    obtain ⟨valid, shapes⟩ := Has.shapes_eq each
    refine (ensures_build (Store.ensures_combine_shape valid)).mono fun n g' _ _ ⟨same, h⟩ => ?_
    rw [shapes, ← Expression.shapes_eq, ← same] at h
    exact ⟨h.1, h.2⟩

theorem ensures_encodeAll_shape (es : List Expression) (f : Forest) :
    growth.Ensures (encodeAll es) f fun ns g =>
      List.Forall₂ (fun e n => g.Has n (Expression.shape e)) es ns := by
  match es with
  | [] =>
    rw [encodeAll]
    exact .pure fun _ => .nil
  | e :: es =>
    rw [encodeAll]
    refine (ensures_encode_shape e f).bind fun n g hg _ head => ?_
    refine (ensures_encodeAll_shape es g).bind fun ns h _ le tail => .pure fun _ => ?_
    exact .cons (head.stable hg le) tail

end

/-- Expressions that are planted one after the other get the same node just if they have the same
shape. -/
theorem encode_eq_iff (hf : f.Valid) (run : encode e f = .ok n g) (run' : encode e' g = .ok n' h) :
    n' = n ↔ e.shape = e'.shape := by
  obtain ⟨hg, -, old⟩ := (ensures_encode_shape e f).of_ok hf run
  obtain ⟨hh, le, new⟩ := (ensures_encode_shape e' g).of_ok hg run'
  have old := old.stable hg le
  constructor
  · rintro rfl
    rw [← old.shape_eq, new.shape_eq]
  · intro same
    exact Store.eq_of_shape_eq hh.store new.valid old.valid
      (new.shape_eq.trans (same.symm.trans old.shape_eq.symm))

/-! ## Planting and reading back -/

/-- Well-formed leaves over the vocabulary are planted unless all numbers are issued. -/
theorem exhausted_of_encode {fault : Fault} (hf : f.Valid) (wf : e.WellFormed)
    (covers : ∀ c ∈ e.comparisons, f.vocabulary.Covers c) (run : encode e f = .error fault g) :
    Store.Exhausted fault g.store := by
  rcases refused_of_encode hf covers run with ⟨c, first, -⟩ | exhausted
  · cases first.symm.trans wf.firstMalformed?
  · exact exhausted

theorem exists_encode (hf : f.Valid) (wf : e.WellFormed)
    (covers : ∀ c ∈ e.comparisons, f.vocabulary.Covers c)
    (room : f.store.size + e.combinedCount ≤ Node.maxNumber) : ∃ n g, encode e f = .ok n g := by
  have bound := issuesAtMost_encode e f
  cases run : encode e f with
  | ok n g => exact ⟨n, g, rfl⟩
  | error fault g =>
    have full := (exhausted_of_encode hf wf covers run).full
    rw [run] at bound
    simp only at bound
    omega

/-- What is planted is read back as an expression that means the same. -/
theorem express_of_encode (hf : f.Valid) (run : encode e f = .ok n g) :
    ∃ e' t, express n g = .ok e' { g with translator := t } ∧ ∀ r, e'.holds r = e.holds r := by
  obtain ⟨hg, -, has⟩ := (ensures_encode_shape e f).of_ok hf run
  obtain ⟨t, read, -⟩ := exists_express hg has.valid
  refine ⟨g.spell n, t, read, fun r => ?_⟩
  rw [holds_spell hg has.valid]
  exact ((ensures_encode r e f).of_ok hf run).2.2.holds

end Forest

namespace Session

variable {x : Session} {e e' : Expression} {n n' : Node} {f g : Forest}

/-- The node that joins usable nodes holds of the records that the AND or OR of them holds of, and
an expression of well-formed leaves over the vocabulary is planted and read back as one that means
the same, unless all numbers are issued. -/
theorem Reached.construction_keeps_meaning (h : x.Reached) :
    (∀ (k : Connective) (ms : List Node), (∀ m ∈ ms, x.Usable m) →
      match Forest.build (.combine k ms) x.forest with
      | .ok n f => ∀ r, f.holds r n = k.join (f.holds r) ms ∧
          ∀ m ∈ ms, f.holds r m = x.forest.holds r m
      | .error fault f => ∃ id, fault = .numberTooLarge id ∧ Node.maxNumber < f.store.size) ∧
    ∀ e : Expression, e.WellFormed → (∀ c ∈ e.comparisons, x.forest.vocabulary.Covers c) →
      match Forest.encode e x.forest with
      | .ok n f => ∃ e' t, Forest.express n f = .ok e' { f with translator := t } ∧
          ∀ r, e'.holds r = e.holds r
      | .error fault f => ∃ id, fault = .numberTooLarge id ∧ Node.maxNumber < f.store.size := by
  have sound := h.sound
  constructor
  · intro k ms usable
    have valid : ∀ m ∈ ms, x.forest.ValidNode m := fun m hm => sound.validNode (usable m hm)
    have joins : ∀ r, Store.Joins x.forest.vocabulary r True x.forest.store k ms
        (k.join (x.forest.holds r) ms) := fun r => ⟨valid, fun _ => rfl⟩
    cases run : Forest.build (.combine k ms) x.forest with
    | ok n f =>
      intro r
      obtain ⟨-, le, means⟩ :=
        (Forest.ensures_build_node (Store.ensures_combine (joins r))).of_ok sound.forest run
      have kept : ∀ m ∈ ms, f.holds r m = x.forest.holds r m := by
        intro m hm
        have old : x.forest.Means r m (x.forest.holds r m) := .of_valid (valid m hm)
        exact (old.stable sound.forest le).holds
      refine ⟨?_, kept⟩
      rw [means.holds, Connective.join_congr kept]
    | error fault f =>
      have failed := Forest.build_eq_error run
      obtain ⟨-, -, ⟨id, eq⟩, full⟩ :=
        (Store.ensures_combine (joins fun _ => none)).of_error sound.forest.store failed
      exact ⟨id, eq, full⟩
  · intro e wf covers
    cases run : Forest.encode e x.forest with
    | ok n f => exact Forest.express_of_encode sound.forest run
    | error fault f =>
      obtain ⟨⟨id, eq⟩, full⟩ := Forest.exhausted_of_encode sound.forest wf covers run
      exact ⟨id, eq, full⟩

/-- Expressions that say the same in other words are planted as the same node. -/
theorem Reached.construction_canonical (h : x.Reached) (same : e.Reworded e')
    (run : Forest.encode e x.forest = .ok n f) (run' : Forest.encode e' f = .ok n' g) : n' = n :=
  (Forest.encode_eq_iff h.sound.forest run run').2 same.shape_eq

end Session

/-! ## A sample -/

namespace Sample

theorem covers_knownLeaf : vocabulary.Covers knownLeaf.comparison where
  names name hn := by
    obtain rfl := List.mem_singleton.1 hn
    exact ⟨0, rfl⟩
  values w hw := by cases hw

theorem covers_of_leaves {e : Expression}
    (h : ∀ c ∈ e.comparisons, c ∈ [equalLeaf.comparison, knownLeaf.comparison]) :
    ∀ c ∈ e.comparisons, vocabulary.Covers c := by
  intro c hc
  rcases List.mem_pair.1 (h c hc) with rfl | rfl
  · exact covers_equalLeaf
  · exact covers_knownLeaf

/-- The expression `ALL AND (a IS NOT UNKNOWN AND a IS NOT UNKNOWN) AND (OR a = x)`. -/
def rewording : Expression :=
  .combined .and [.constant .all, .combined .and [.leaf knownLeaf, .leaf knownLeaf],
    .combined .or [.leaf equalLeaf]]

open Expression in
theorem reworded : expression.Reworded rewording := by
  have perm : Reword expression (.combined .and [.leaf knownLeaf, .leaf equalLeaf]) :=
    .perm (.swap _ _ _)
  have duplicate : Reword (.combined .and [.leaf knownLeaf, .leaf equalLeaf])
      (.combined .and [.leaf knownLeaf, .leaf knownLeaf, .leaf equalLeaf]) :=
    .duplicate List.mem_cons_self
  have wrap : Somewhere Reword
      (.combined .and [.leaf knownLeaf, .leaf knownLeaf, .leaf equalLeaf])
      (.combined .and [.leaf knownLeaf, .leaf knownLeaf, .combined .or [.leaf equalLeaf]]) :=
    @Somewhere.member _ .and _ _ [.leaf knownLeaf, .leaf knownLeaf] [] (.here .wrap)
  have group : Reword
      (.combined .and [.leaf knownLeaf, .leaf knownLeaf, .combined .or [.leaf equalLeaf]])
      (.combined .and [.combined .and [.leaf knownLeaf, .leaf knownLeaf],
        .combined .or [.leaf equalLeaf]]) :=
    @Reword.group .and [.leaf knownLeaf, .leaf knownLeaf] _
  have steps : Relation.ReflTransGen (Somewhere Reword) expression rewording :=
    .tail (.tail (.tail (.tail (.single (.here perm)) (.here duplicate)) wrap) (.here group))
      (.here .neutral)
  exact Relation.EqvGen.reflTransGen_le_eqvGen _ _ _ steps

/-- The AND of the two nodes holds where both do, and its expression is planted and read back. -/
theorem both_constructed :
    (∃ f, Forest.build (.combine .and [equal, known]) session.forest = .ok both f ∧
      ∀ r, f.holds r both = Connective.and.join (f.holds r) [equal, known]) ∧
    ∃ n f e' t, Forest.encode rewording session.forest = .ok n f ∧
      Forest.express n f = .ok e' { f with translator := t } ∧
      ∀ r, e'.holds r = rewording.holds r := by
  obtain ⟨combines, plants⟩ := reached.construction_keeps_meaning
  constructor
  · have built : Build.combine .and [equal, known] session.forest.store = .ok both store := by
      have again : store.combine .and [equal, known] = .ok (both, store) :=
        Store.combine_of_consolidated (consolidated .and) rfl (by decide)
      rw [Build.combine, show session.forest.store = store from rfl, again]
    have run := Forest.build_eq_ok built
    have joined := combines .and [equal, known] (by
      intro m hm
      rcases List.mem_pair.1 hm with rfl | rfl
      · exact usable_equal
      · exact usable_known)
    rw [run] at joined
    exact ⟨_, run, fun r => (joined r).1⟩
  · have wf : rewording.WellFormed := by decide
    have covers : ∀ c ∈ rewording.comparisons, vocabulary.Covers c :=
      covers_of_leaves (by decide)
    obtain ⟨n, f, run⟩ := Forest.exists_encode reached.sound.forest wf covers (by decide)
    have read := plants rewording wf covers
    rw [run] at read
    obtain ⟨e', t, express, means⟩ := read
    exact ⟨n, f, e', t, run, express, means⟩

/-- Both ways to write it are planted as one node. -/
theorem rewording_same_node : expression.Reworded rewording ∧
    ∃ n f g, Forest.encode expression session.forest = .ok n f ∧
      Forest.encode rewording f = .ok n g := by
  have hf := reached.sound.forest
  obtain ⟨n, f, run⟩ := Forest.exists_encode (e := expression) hf (by decide)
    (covers_of_leaves (by decide)) (by decide)
  obtain ⟨hg, le, -⟩ := (Forest.ensures_encode_shape expression session.forest).of_ok hf run
  have size : f.store.size ≤ 2 := by
    have bound := Forest.issuesAtMost_encode expression session.forest
    rw [run] at bound
    exact bound
  obtain ⟨n', g, run'⟩ := Forest.exists_encode (e := rewording) hg (by decide)
    (by
      rw [le.vocabulary_eq]
      exact covers_of_leaves (by decide))
    (Nat.le_trans (Nat.add_le_add_right size _) (by decide))
  obtain rfl := reached.construction_canonical reworded run run'
  exact ⟨reworded, n', f, g, run, run'⟩

end Sample

end Criteria
