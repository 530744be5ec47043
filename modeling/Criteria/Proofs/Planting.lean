import Criteria.Proofs.Forest
import Criteria.Proofs.RoundTrip
import Criteria.Proofs.Words

/-!
# What planting fails with

An expression is planted in two steps. Its words are numbered, which fails if there are more names
or else more values than a leaf can tell apart (`ofExpression_cases`). Then its node is built from
the leaves up, and the first leaf from the left whose operand does not go with its operator stops
it (`refused_of_encode`). Nothing else does unless the numbers run out, for which the expression has
to have more combined parts than there are numbers (`issuesAtMost_encode`).
-/

namespace Criteria

/-! ## Counting words -/

namespace Ascending

variable {α : Type} [LT α] [DecidableLT α] [DecidableEq α]

/-- Sorting leaves the set of elements. -/
theorem toFinset_ofList (l : List α) : (ofList l).toFinset = l.toFinset := by
  ext x
  rw [List.mem_toFinset, List.mem_toFinset, mem_ofList]

end Ascending

namespace Expression

variable {e : Expression}

/-- How many different names an expression mentions, those that it refers to included. -/
def nameCount (e : Expression) : Nat := (e.comparisons.flatMap (·.arguments)).toFinset.card

/-- How many different values an expression mentions. -/
def valueCount (e : Expression) : Nat := (e.comparisons.filterMap (·.value?)).toFinset.card

theorem card_argumentNames (e : Expression) : e.argumentNames.toFinset.card = e.nameCount := by
  rw [argumentNames, Ascending.toFinset_ofList]
  rfl

theorem card_values (e : Expression) : e.values.toFinset.card = e.valueCount := by
  rw [values, Ascending.toFinset_ofList]
  rfl

theorem mem_argumentNames {c : Comparison} {name : String} (hc : c ∈ e.comparisons)
    (hn : name ∈ c.arguments) : name ∈ e.argumentNames :=
  Ascending.mem_ofList.2 (List.mem_flatMap.2 ⟨c, hc, hn⟩)

theorem mem_values {c : Comparison} {w : String} (hc : c ∈ e.comparisons) (hw : w ∈ c.value?) :
    w ∈ e.values :=
  Ascending.mem_ofList.2 (List.mem_filterMap.2 ⟨c, hc, hw⟩)

end Expression

namespace Vocabulary

/-- A vocabulary with all words that an expression mentions. -/
theorem covers_of_subset {v : Vocabulary} {e : Expression}
    (names : e.argumentNames.toFinset ⊆ v.names.set) (values : e.values.toFinset ⊆ v.values.set) :
    ∀ c ∈ e.comparisons, v.Covers c := by
  intro c hc
  constructor
  · intro name hn
    exact WordList.mem_set.1 (names (List.mem_toFinset.2 (Expression.mem_argumentNames hc hn)))
  · intro w hw
    exact WordList.mem_set.1 (values (List.mem_toFinset.2 (Expression.mem_values hc hw)))

/-- The words of an expression are numbered unless there are too many names, or else too many
values. -/
theorem ofExpression_words (e : Expression) :
    (Node.maxNames < e.nameCount ∧ ofExpression e = .error (.vocabularyFull .names)) ∨
    (e.nameCount ≤ Node.maxNames ∧ Node.maxValues < e.valueCount ∧
      ofExpression e = .error (.vocabularyFull .values)) ∨
    (e.nameCount ≤ Node.maxNames ∧ e.valueCount ≤ Node.maxValues ∧
      ∃ v, ofExpression e = .ok v ∧ v.names.set = e.argumentNames.toFinset ∧
        v.values.set = e.values.toFinset) := by
  have added := add_cases empty e.argumentNames e.values
  rw [show empty.names.set = ∅ from rfl, show empty.values.set = ∅ from rfl, Finset.empty_union,
    Finset.empty_union, Expression.card_argumentNames, Expression.card_values] at added
  exact added

theorem set_of_ofExpression {v : Vocabulary} {e : Expression} (h : ofExpression e = .ok v) :
    v.names.set = e.argumentNames.toFinset ∧ v.values.set = e.values.toFinset := by
  rcases ofExpression_words e with ⟨-, run⟩ | ⟨-, -, run⟩ | ⟨-, -, v', run, sets⟩
  · cases h.symm.trans run
  · cases h.symm.trans run
  · cases h.symm.trans run
    exact sets

theorem ofExpression_cases (e : Expression) :
    (Node.maxNames < e.nameCount ∧ ofExpression e = .error (.vocabularyFull .names)) ∨
    (e.nameCount ≤ Node.maxNames ∧ Node.maxValues < e.valueCount ∧
      ofExpression e = .error (.vocabularyFull .values)) ∨
    (e.nameCount ≤ Node.maxNames ∧ e.valueCount ≤ Node.maxValues ∧
      ∃ v, ofExpression e = .ok v ∧ ∀ c ∈ e.comparisons, v.Covers c) := by
  rcases ofExpression_words e with full | full | ⟨fits, fits', v, eq, names, values⟩
  · exact .inl full
  · exact .inr (.inl full)
  · exact .inr (.inr ⟨fits, fits', v, eq, covers_of_subset names.ge values.ge⟩)

end Vocabulary

/-! ## Malformed leaves -/

/-- The fault of a comparison whose operand does not go with its operator. -/
def Comparison.misfit (c : Comparison) : Fault :=
  .misfit c.argument (if c.operator = .isUnknown then .unwanted else .missing)

/-- The first comparison from the left whose operand does not go with its operator. -/
def Expression.firstMalformed? (e : Expression) : Option Comparison :=
  e.comparisons.find? (!·.isWellFormed)

theorem Expression.WellFormed.firstMalformed? {e : Expression} (h : e.WellFormed) :
    e.firstMalformed? = none :=
  List.find?_eq_none.2 fun c hc => by simp [h c hc]

theorem Vocabulary.encodeLeaf_of_malformed {v : Vocabulary} {l : Leaf}
    (h : l.comparison.isWellFormed = false) :
    v.encodeLeaf l = .error l.comparison.misfit := by
  simp only [encodeLeaf, h]
  rfl

/-- A malformed leaf is never remembered, so it is refused whatever was translated before. -/
theorem Translator.encodeLeaf_of_malformed {t : Translator} {l : Leaf} (ht : t.Faithful)
    (h : l.comparison.isWellFormed = false) :
    ∃ u, encodeLeaf l t = .error l.comparison.misfit u := by
  cases run : encodeLeaf l t with
  | ok n u =>
    obtain ⟨-, -, code⟩ := ensures_encodeLeaf.of_ok ht run
    rw [code.isWellFormed] at h
    cases h
  | error fault u =>
    obtain ⟨v, encoded, decoded⟩ := t
    simp only [encodeLeaf, Vocabulary.encodeLeaf_of_malformed h] at run
    split at run
    · cases run
    · cases run
      exact ⟨_, rfl⟩

namespace Forest

variable {α : Type} {f g : Forest} {fault : Fault}

theorem comparisons_combined (k : Connective) (es : List Expression) :
    (Expression.combined k es).comparisons = es.flatMap (·.comparisons) := by
  show (Expression.leavesOf es).filterMap _ = _
  rw [Expression.leavesOf_eq_flatMap, List.filterMap_flatMap]
  rfl

theorem translate_eq_error {x : Attempt Translator α} (h : translate x f = .error fault g) :
    ∃ t, x f.translator = .error fault t := by
  obtain ⟨t, store, roots⟩ := f
  simp only [translate] at h
  split at h
  · cases h
  · next t eq =>
    cases h
    exact ⟨_, eq⟩

theorem build_eq_error {x : Build α} (h : build x f = .error fault g) :
    x f.store = .error fault g.store := by
  obtain ⟨t, store, roots⟩ := f
  simp only [build] at h
  split at h
  · cases h
  · next eq =>
    cases h
    exact eq

/-! ## Planting -/

mutual

/-- What is planted has no malformed leaf. -/
theorem isWellFormed_of_encode {f g : Forest} {e : Expression} {n : Node} (hf : f.Valid)
    (h : encode e f = .ok n g) : ∀ c ∈ e.comparisons, c.isWellFormed = true := by
  match e with
  | .constant c => simp [Expression.comparisons, Expression.leaves, Expression.comparison?]
  | .leaf l =>
    rw [encode] at h
    obtain ⟨-, -, code⟩ := (ensures_translate Translator.ensures_encodeLeaf).of_ok hf h
    simp only [Expression.comparisons, Expression.leaves, List.filterMap_cons,
      Expression.comparison?, List.filterMap_nil, List.mem_singleton, forall_eq]
    exact code.isWellFormed
  | .combined k es =>
    rw [encode] at h
    obtain ⟨ns, u, run, -⟩ := exists_of_bind_eq_ok h
    rw [comparisons_combined]
    exact isWellFormed_of_encodeAll hf run

theorem isWellFormed_of_encodeAll {f g : Forest} {es : List Expression} {ns : List Node}
    (hf : f.Valid) (h : encodeAll es f = .ok ns g) :
    ∀ c ∈ es.flatMap (·.comparisons), c.isWellFormed = true := by
  match es with
  | [] => simp
  | e :: es =>
    rw [encodeAll] at h
    obtain ⟨n, u, head, h⟩ := exists_of_bind_eq_ok h
    obtain ⟨ns, w, tail, -⟩ := exists_of_bind_eq_ok h
    obtain ⟨hu, -⟩ := (ensures_encode (fun _ => none) e f).of_ok hf head
    rw [List.flatMap_cons]
    exact List.forall_mem_append.2
      ⟨isWellFormed_of_encode hf head, isWellFormed_of_encodeAll hu tail⟩

end

/-- The fault of the first malformed comparison of a list, or that no number is left. -/
def Refused (cs : List Comparison) (fault : Fault) (s : Store) : Prop :=
  (∃ c, cs.find? (!·.isWellFormed) = some c ∧ fault = c.misfit) ∨ Store.Exhausted fault s

theorem Refused.append_right {cs : List Comparison} {s : Store} (h : Refused cs fault s)
    (cs' : List Comparison) : Refused (cs ++ cs') fault s := by
  rcases h with ⟨c, first, eq⟩ | exhausted
  · refine .inl ⟨c, ?_, eq⟩
    rw [List.find?_append, first, Option.some_or]
  · exact .inr exhausted

theorem Refused.append_left {cs : List Comparison} {s : Store} (h : Refused cs fault s)
    {cs' : List Comparison} (wf : ∀ c ∈ cs', c.isWellFormed = true) :
    Refused (cs' ++ cs) fault s := by
  rcases h with ⟨c, first, eq⟩ | exhausted
  · refine .inl ⟨c, ?_, eq⟩
    have none : cs'.find? (!·.isWellFormed) = none := by
      rw [List.find?_eq_none]
      intro c' hc'
      simp [wf c' hc']
    rw [List.find?_append, none, Option.none_or, first]
  · exact .inr exhausted

mutual

/-- Planting over all words of an expression fails with its first malformed leaf, or because no
number is left. -/
theorem refused_of_encode {f g : Forest} {e : Expression} (hf : f.Valid)
    (covers : ∀ c ∈ e.comparisons, f.vocabulary.Covers c) (h : encode e f = .error fault g) :
    Refused e.comparisons fault g.store := by
  match e with
  | .constant c =>
    rw [encode] at h
    obtain ⟨t, run⟩ := translate_eq_error h
    cases run
  | .leaf l =>
    rw [encode] at h
    obtain ⟨t, run⟩ := translate_eq_error h
    have here : l.comparison ∈ (Expression.leaf l).comparisons := List.mem_singleton_self _
    cases wf : l.comparison.isWellFormed with
    | true =>
      obtain ⟨n, code⟩ := Vocabulary.codes_of_covers wf (covers _ here)
      obtain ⟨u, run', -⟩ := Translator.encodeLeaf_of_codes hf.translator code
      rw [Translator.encode, run'] at run
      cases run
    | false =>
      obtain ⟨u, run'⟩ := Translator.encodeLeaf_of_malformed hf.translator wf
      rw [Translator.encode, run'] at run
      cases run
      refine .inl ⟨l.comparison, ?_, rfl⟩
      exact List.find?_cons_of_pos (by simp [wf])
  | .combined k es =>
    rw [encode] at h
    rw [comparisons_combined] at covers ⊢
    rcases of_bind_eq_error h with members | ⟨ns, u, members, h⟩
    · exact refused_of_encodeAll hf covers members
    · obtain ⟨hu, -, each⟩ := (ensures_encodeAll (fun _ => none) es f).of_ok hf members
      have valid : ∀ n ∈ ns, u.ValidNode n := by
        intro n hn
        obtain ⟨e, -, means⟩ := exists_of_mem_forall₂ each hn
        exact means.valid
      have joins : Store.Joins u.vocabulary (fun _ => none) True u.store k ns _ :=
        ⟨valid, fun _ => rfl⟩
      exact .inr ((Store.ensures_combine joins).of_error hu.store (build_eq_error h)).2.2

theorem refused_of_encodeAll {f g : Forest} {es : List Expression} (hf : f.Valid)
    (covers : ∀ c ∈ es.flatMap (·.comparisons), f.vocabulary.Covers c)
    (h : encodeAll es f = .error fault g) :
    Refused (es.flatMap (·.comparisons)) fault g.store := by
  match es with
  | [] =>
    rw [encodeAll] at h
    cases h
  | e :: es =>
    rw [encodeAll] at h
    rw [List.flatMap_cons] at covers ⊢
    rw [List.forall_mem_append] at covers
    rcases of_bind_eq_error h with head | ⟨n, u, head, h⟩
    · exact (refused_of_encode hf covers.1 head).append_right _
    · obtain ⟨hu, le, -⟩ := (ensures_encode (fun _ => none) e f).of_ok hf head
      rcases of_bind_eq_error h with tail | ⟨ns, w, -, h⟩
      · refine (refused_of_encodeAll hu ?_ tail).append_left (isWellFormed_of_encode hf head)
        rw [le.vocabulary_eq]
        exact covers.2
      · cases h

end

end Forest

/-! ## How many numbers planting takes -/

mutual
/-- How many parts of an expression are combined, the whole included. -/
def Expression.combinedCount : Expression → Nat
  | .constant _ => 0
  | .leaf _ => 0
  | .combined _ es => Expression.combinedCounts es + 1

/-- How many parts of the members are combined. -/
def Expression.combinedCounts : List Expression → Nat
  | [] => 0
  | e :: es => Expression.combinedCount e + Expression.combinedCounts es
end

theorem Store.size_combine_le {s t : Store} {k : Connective} {l : List Node} {n : Node}
    (h : s.combine k l = .ok (n, t)) : t.size ≤ s.size + 1 := by
  rcases register_of_combine h with rfl | ⟨ms, id, -, registered, -⟩
  · exact Nat.le_succ _
  · rcases size_register registered with same | ⟨next, -⟩
    · omega
    · omega

namespace Forest

variable {α β : Type}

/-- A computation that issues so many numbers at most, whether it fails or not. -/
def IssuesAtMost (x : Attempt Forest α) (count : Nat) : Prop :=
  ∀ f, match x f with
    | .ok _ g => g.store.size ≤ f.store.size + count
    | .error _ g => g.store.size ≤ f.store.size + count

namespace IssuesAtMost

theorem pure (a : α) : IssuesAtMost (pure a) 0 := fun _ => Nat.le_refl _

theorem bind {x : Attempt Forest α} {y : α → Attempt Forest β} {i j : Nat}
    (hx : IssuesAtMost x i) (hy : ∀ a, IssuesAtMost (y a) j) : IssuesAtMost (x >>= y) (i + j) := by
  intro f
  have first := hx f
  cases run : x f with
  | error fault g =>
    rw [run] at first
    rw [bind_eq_of_error run]
    exact Nat.le_trans first (by omega)
  | ok a g =>
    rw [run] at first
    rw [bind_eq_of_ok run]
    have second := hy a g
    cases run' : y a g with
    | error fault h =>
      rw [run'] at second
      simp only at first second ⊢
      omega
    | ok b h =>
      rw [run'] at second
      simp only at first second ⊢
      omega

end IssuesAtMost

theorem issuesAtMost_translate (x : Attempt Translator α) : IssuesAtMost (translate x) 0 := by
  rintro ⟨t, store, roots⟩
  simp only [translate]
  cases x t with
  | ok a u => exact Nat.le_refl _
  | error fault u => exact Nat.le_refl _

theorem issuesAtMost_combine (k : Connective) (l : List Node) :
    IssuesAtMost (build (.combine k l)) 1 := by
  rintro ⟨t, store, roots⟩
  simp only [build, Build.combine]
  cases eq : store.combine k l with
  | ok y => exact Store.size_combine_le eq
  | error fault => exact Nat.le_succ _

mutual

/-- Planting issues no more numbers than an expression has combined parts. -/
theorem issuesAtMost_encode (e : Expression) : IssuesAtMost (encode e) e.combinedCount := by
  match e with
  | .constant c =>
    rw [encode]
    exact issuesAtMost_translate _
  | .leaf l =>
    rw [encode]
    exact issuesAtMost_translate _
  | .combined k es =>
    rw [encode, Expression.combinedCount]
    exact (issuesAtMost_encodeAll es).bind fun ns => issuesAtMost_combine k ns

theorem issuesAtMost_encodeAll (es : List Expression) :
    IssuesAtMost (encodeAll es) (Expression.combinedCounts es) := by
  match es with
  | [] =>
    rw [encodeAll]
    exact .pure []
  | e :: es =>
    rw [encodeAll, Expression.combinedCounts]
    exact (issuesAtMost_encode e).bind fun n =>
      (issuesAtMost_encodeAll es).bind fun ns => .pure (n :: ns)

end

end Forest

/-! ## Planting a forest -/

open Forest in
/-- All that planting over the words of an expression can come to: its node is built and no leaf is
malformed, or the first malformed leaf stops it, or the numbers run out, which takes an expression
of more combined parts than there are numbers. -/
theorem Forest.encode_cases {v : Vocabulary} {e : Expression}
    (covers : ∀ c ∈ e.comparisons, v.Covers c) :
    (e.firstMalformed? = none ∧ ∃ n f, encode e (.ofVocabulary v) = .ok n f) ∨
    (∃ c f, e.firstMalformed? = some c ∧ encode e (.ofVocabulary v) = .error c.misfit f) ∨
    ∃ id f, encode e (.ofVocabulary v) = .error (.numberTooLarge id) f ∧
      Node.maxNumber < f.store.size ∧ Node.maxNumber < e.combinedCount := by
  have hf := valid_ofVocabulary v
  have bound := issuesAtMost_encode e (.ofVocabulary v)
  cases run : encode e (.ofVocabulary v) with
  | ok n f =>
    have wf : e.WellFormed := isWellFormed_of_encode hf run
    exact .inl ⟨wf.firstMalformed?, n, f, rfl⟩
  | error fault f =>
    rcases refused_of_encode hf covers run with ⟨c, first, rfl⟩ | ⟨⟨id, rfl⟩, full⟩
    · exact .inr (.inl ⟨c, f, first, rfl⟩)
    · rw [run] at bound
      have none : (ofVocabulary v).store.size = 0 := rfl
      exact .inr (.inr ⟨id, f, rfl, full, by omega⟩)

end Criteria
