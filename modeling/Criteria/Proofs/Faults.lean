import Criteria.Proofs.Demands
import Criteria.Proofs.Planting
import Criteria.Proofs.Recovery

/-!
# What a simplification fails with

**Theorem (`simplification_faults`).** Simplifying an expression fails because it mentions too many
names, or else too many values, or else because a leaf of it is malformed, of which the first from
the left is reported; then only because its time is up or all numbers are issued. Every other
expression is simplified, given enough time. In a session no pass on usable nodes fails with a fault
but that all numbers are issued, and what the parts hand to each other on the way is what they rely
on.

The words are numbered and the node is built before anything is simplified, so these faults depend
on the expression alone (`Forest.encode_cases`). A planted forest is valid, and on a valid forest a
run fails with its time or with the numbers (`Revision.run_error`); with enough time it does not
(`Revision.exists_enough`). The new root is valid again and so is read back
(`Forest.exists_expressRoot`).
-/

namespace Criteria

/-! ## Simplifying -/

namespace Settings

variable {settings : Settings} {clock : Nat → Nat} {e : Expression} {f g : Forest}

/-- A number is asked for when all of them are issued, when an expression is planted or when it is
simplified. -/
inductive RunsOut (settings : Settings) (clock : Nat → Nat) (e : Expression) : Prop
  | planting {v : Vocabulary} {id : Nat} {f : Forest} : Vocabulary.ofExpression e = .ok v →
      Forest.encode e (.ofVocabulary v) = .error (.numberTooLarge id) f →
      Node.maxNumber < f.store.size → RunsOut settings clock e
  | simplifying {f g : Forest} {id : Nat} {budget : Budget} : Forest.ofExpression e = .ok f →
      Forest.simplify settings.cleanup settings.housekeeping (f, settings.budget clock) =
        .error (.fault (.numberTooLarge id)) (g, budget) →
      Node.maxNumber < g.store.size → RunsOut settings clock e

theorem simplify_of_ofExpression_error {fault : Fault} (h : Forest.ofExpression e = .error fault) :
    settings.simplify clock e = .error (.fault fault) := by
  rw [simplify, h]
  rfl

theorem simplify_of_simplifyForest_error {failure : Failure} (h : Forest.ofExpression e = .ok f)
    (failed : settings.simplifyForest clock f = .error failure) :
    settings.simplify clock e = .error failure := by
  rw [simplify, h]
  show (settings.simplifyForest clock f >>= _) = _
  rw [failed]
  rfl

/-- When the numbers run out there is no result. -/
theorem RunsOut.ne_ok (h : settings.RunsOut clock e) (e' : Expression) :
    settings.simplify clock e ≠ .ok e' := by
  intro ok
  cases h with
  | @planting v id f words run _ =>
    have failed : Forest.ofExpression e = .error (.numberTooLarge id) := by
      rw [Forest.ofExpression, words]
      show (Forest.complete (Forest.encode e) (.ofVocabulary v) >>= _) = _
      rw [Forest.complete, run]
      rfl
    rw [simplify_of_ofExpression_error failed] at ok
    cases ok
  | @simplifying f g id budget planted run _ =>
    have failed : settings.simplifyForest clock f = .error (.fault (.numberTooLarge id)) := by
      rw [simplifyForest, run]
    rw [simplify_of_simplifyForest_error planted failed] at ok
    cases ok

/-- The root of a simplified forest is always read back. -/
theorem exists_simplify_eq_ok (h : Forest.ofExpression e = .ok f)
    (done : settings.simplifyForest clock f = .ok g) :
    ∃ n, g.roots = [n] ∧ settings.simplify clock e = .ok (g.spell n) := by
  obtain ⟨hf, n, roots, -⟩ := Forest.valid_ofExpression h
  obtain ⟨hg, each⟩ := simplifyForest_ok hf done
  have each := each fun _ => none
  rw [roots] at each
  obtain ⟨n', ns', -, rest, roots'⟩ := List.forall₂_cons_left_iff.1 each
  obtain rfl := List.forall₂_nil_left_iff.1 rest
  obtain ⟨t, read⟩ := Forest.exists_expressRoot hg roots'
  refine ⟨n', roots', ?_⟩
  rw [simplify, h]
  show (settings.simplifyForest clock f >>= _) = _
  rw [done]
  show (orFail (Forest.complete Forest.expressRoot g) >>= _) = _
  rw [read]
  rfl

/-- What simplifying the roots of a forest comes to. -/
theorem simplifyForest_cases (settings : Settings) (clock : Nat → Nat) (hf : f.Valid) :
    (∃ g, settings.simplifyForest clock f = .ok g) ∨
    (∃ o, settings.simplifyForest clock f = .error (.overrun o)) ∨
    ∃ id g budget, Forest.simplify settings.cleanup settings.housekeeping
        (f, settings.budget clock) = .error (.fault (.numberTooLarge id)) (g, budget) ∧
      Node.maxNumber < g.store.size ∧
      settings.simplifyForest clock f = .error (.fault (.numberTooLarge id)) := by
  unfold simplifyForest
  cases run : Forest.simplify settings.cleanup settings.housekeeping
      (f, settings.budget clock) with
  | ok _ s => exact .inl ⟨s.1, rfl⟩
  | error failure s =>
    right
    cases failure with
    | overrun o => exact .inl ⟨o, rfl⟩
    | fault fault =>
      have failed : (Revision.simplify settings.cleanup settings.housekeeping).run
          (f, settings.budget clock) = .error (.fault fault) s := run
      obtain ⟨⟨id, rfl⟩, full⟩ := (Revision.run_error hf failed).2.2 fault rfl
      exact .inr ⟨id, s.1, s.2, rfl, full, rfl⟩

/-- For every forest there is a number of checks such that time for so many is enough. -/
theorem exists_checks_forest (settings : Settings) (hf : f.Valid) :
    ∃ checks, ∀ clock, (∀ k < checks, clock k < settings.milliseconds) →
      ∀ o, settings.simplifyForest clock f ≠ .error (.overrun o) := by
  obtain ⟨checks, ends⟩ :=
    (Revision.simplify settings.cleanup settings.housekeeping).exists_enough hf 0
  refine ⟨checks, fun clock time o eq => ?_⟩
  have passes : (Limit.deadline settings.milliseconds clock).Passes 0 checks := by
    intro k _ lt
    simp only [Budget.overrun?, if_pos (time k lt)]
  unfold simplifyForest at eq
  rcases ends _ passes with ⟨g, budget, run⟩ | ⟨id, g, budget, run, -⟩
  · have run : Forest.simplify settings.cleanup settings.housekeeping
        (f, settings.budget clock) = .ok () (g, budget) := run
    rw [run] at eq
    cases eq
  · have run : Forest.simplify settings.cleanup settings.housekeeping
        (f, settings.budget clock) = .error (.fault (.numberTooLarge id)) (g, budget) := run
    rw [run] at eq
    cases eq

/-- What a planted expression comes to. -/
theorem simplify_cases (settings : Settings) (clock : Nat → Nat)
    (h : Forest.ofExpression e = .ok f) :
    (∃ e', settings.simplify clock e = .ok e') ∨
    (∃ o, settings.simplify clock e = .error (.overrun o)) ∨
    settings.RunsOut clock e ∧
      ∃ id, settings.simplify clock e = .error (.fault (.numberTooLarge id)) := by
  have hf := (Forest.valid_ofExpression h).1
  rcases simplifyForest_cases settings clock hf with
    ⟨g, done⟩ | ⟨o, late⟩ | ⟨id, g, budget, run, full, failed⟩
  · obtain ⟨n, -, ok⟩ := exists_simplify_eq_ok h done
    exact .inl ⟨g.spell n, ok⟩
  · exact .inr (.inl ⟨o, simplify_of_simplifyForest_error h late⟩)
  · exact .inr (.inr ⟨.simplifying h run full, id, simplify_of_simplifyForest_error h failed⟩)

/-- For every expression there is a number of checks such that time for so many is enough. -/
theorem exists_checks (settings : Settings) (e : Expression) :
    ∃ checks, ∀ clock, (∀ k < checks, clock k < settings.milliseconds) →
      ∀ o, settings.simplify clock e ≠ .error (.overrun o) := by
  cases h : Forest.ofExpression e with
  | error fault =>
    refine ⟨0, fun clock _ o eq => ?_⟩
    rw [simplify_of_ofExpression_error h] at eq
    cases eq
  | ok f =>
    have hf := (Forest.valid_ofExpression h).1
    obtain ⟨checks, inTime⟩ := settings.exists_checks_forest hf
    refine ⟨checks, fun clock time o eq => ?_⟩
    cases done : settings.simplifyForest clock f with
    | ok g =>
      obtain ⟨n, -, ok⟩ := exists_simplify_eq_ok h done
      rw [ok] at eq
      cases eq
    | error failure =>
      rw [simplify_of_simplifyForest_error h done] at eq
      cases eq
      exact inTime clock time o done

end Settings

/-- What planting an expression whose words fit comes to. -/
theorem Forest.ofExpression_cases {v : Vocabulary} {e : Expression}
    (words : Vocabulary.ofExpression e = .ok v) (covers : ∀ c ∈ e.comparisons, v.Covers c) :
    (e.firstMalformed? = none ∧ ∃ f, ofExpression e = .ok f) ∨
    (∃ c, e.firstMalformed? = some c ∧ ofExpression e = .error c.misfit) ∨
    (Node.maxNumber < e.combinedCount ∧ ∃ id f,
      encode e (.ofVocabulary v) = .error (.numberTooLarge id) f ∧
      Node.maxNumber < f.store.size ∧ ofExpression e = .error (.numberTooLarge id)) := by
  have planted : ofExpression e = complete (encode e) (.ofVocabulary v) >>= fun x =>
      .ok { x.2 with roots := [x.1] } := by
    rw [ofExpression, words]
    rfl
  rw [planted]
  rcases encode_cases covers with ⟨wf, n, f, run⟩ | ⟨c, f, first, run⟩ | ⟨id, f, run, full, many⟩
  · rw [complete, run]
    exact .inl ⟨wf, _, rfl⟩
  · rw [complete, run]
    exact .inr (.inl ⟨c, first, rfl⟩)
  · refine .inr (.inr ⟨many, id, f, run, full, ?_⟩)
    rw [complete, run]
    rfl

/-! ## Faults -/

namespace Settings

variable {settings : Settings} {clock : Nat → Nat} {e : Expression}

/-- All that simplifying an expression can come to, and when: too many names before too many values,
these before a malformed leaf, and a malformed leaf before all that takes time. -/
inductive Outcome (settings : Settings) (clock : Nat → Nat) (e : Expression) :
    Except Failure Expression → Prop
  | names : Node.maxNames < e.nameCount →
      Outcome settings clock e (.error (.fault (.vocabularyFull .names)))
  | values : e.nameCount ≤ Node.maxNames → Node.maxValues < e.valueCount →
      Outcome settings clock e (.error (.fault (.vocabularyFull .values)))
  | malformed {c : Comparison} : e.nameCount ≤ Node.maxNames → e.valueCount ≤ Node.maxValues →
      e.firstMalformed? = some c → Outcome settings clock e (.error (.fault c.misfit))
  | full {id : Nat} : e.nameCount ≤ Node.maxNames → e.valueCount ≤ Node.maxValues →
      settings.RunsOut clock e → Node.maxNumber < e.combinedCount ∨ e.firstMalformed? = none →
      Outcome settings clock e (.error (.fault (.numberTooLarge id)))
  | overrun {o : Overrun} : e.nameCount ≤ Node.maxNames → e.valueCount ≤ Node.maxValues →
      e.firstMalformed? = none → Outcome settings clock e (.error (.overrun o))
  | ok {e' : Expression} : e.nameCount ≤ Node.maxNames → e.valueCount ≤ Node.maxValues →
      e.firstMalformed? = none → Outcome settings clock e (.ok e')

theorem outcome (settings : Settings) (clock : Nat → Nat) (e : Expression) :
    settings.Outcome clock e (settings.simplify clock e) := by
  have unnumbered : ∀ {fault}, Vocabulary.ofExpression e = .error fault →
      settings.simplify clock e = .error (.fault fault) := by
    intro fault words
    apply simplify_of_ofExpression_error
    rw [Forest.ofExpression, words]
    rfl
  rcases Vocabulary.ofExpression_cases e with ⟨many, words⟩ | ⟨fits, many, words⟩ |
    ⟨fits, fits', v, words, covers⟩
  · rw [unnumbered words]
    exact .names many
  · rw [unnumbered words]
    exact .values fits many
  rcases Forest.ofExpression_cases words covers with ⟨wf, f, planted⟩ | ⟨c, first, refused⟩ |
    ⟨many, id, f, run, full, refused⟩
  · rcases simplify_cases settings clock planted with
      ⟨e', ok⟩ | ⟨o, late⟩ | ⟨runsOut, id, fails⟩
    · rw [ok]
      exact .ok fits fits' wf
    · rw [late]
      exact .overrun fits fits' wf
    · rw [fails]
      exact .full fits fits' runsOut (.inr wf)
  · rw [simplify_of_ofExpression_error refused]
    exact .malformed fits fits' first
  · rw [simplify_of_ofExpression_error refused]
    exact .full fits fits' (.planting words run full) (.inl many)

namespace Outcome

variable {out : Except Failure Expression} (h : settings.Outcome clock e out)

include h

theorem eq_names_iff :
    out = .error (.fault (.vocabularyFull .names)) ↔ Node.maxNames < e.nameCount := by
  cases h with
  | names many => simpa using many
  | values fits => simpa using fits
  | malformed fits => simpa [Comparison.misfit] using fits
  | full fits => simpa using fits
  | overrun fits => simpa using fits
  | ok fits => simpa using fits

theorem eq_values_iff : out = .error (.fault (.vocabularyFull .values)) ↔
    e.nameCount ≤ Node.maxNames ∧ Node.maxValues < e.valueCount := by
  cases h with
  | names many => simpa using fun fits => absurd fits (not_le.2 many)
  | values fits many => simpa using ⟨fits, many⟩
  | malformed _ fits' => simpa [Comparison.misfit] using fun _ => fits'
  | full _ fits' => simpa using fun _ => fits'
  | overrun _ fits' => simpa using fun _ => fits'
  | ok _ fits' => simpa using fun _ => fits'

/-- While there are numbers for all combined nodes, a malformed leaf is reported at any time. -/
theorem eq_misfit {c : Comparison} (fits : e.nameCount ≤ Node.maxNames)
    (fits' : e.valueCount ≤ Node.maxValues) (room : e.combinedCount ≤ Node.maxNumber)
    (first : e.firstMalformed? = some c) : out = .error (.fault c.misfit) := by
  cases h with
  | names many => omega
  | values _ many => omega
  | malformed _ _ first' =>
    rw [first] at first'
    cases first'
    rfl
  | full _ _ _ why =>
    rcases why with many | wf
    · omega
    · rw [first] at wf
      cases wf
  | overrun _ _ wf | ok _ _ wf =>
    rw [first] at wf
    cases wf

theorem of_not_overrun (fits : e.nameCount ≤ Node.maxNames)
    (fits' : e.valueCount ≤ Node.maxValues) (inTime : ∀ o, out ≠ .error (.overrun o)) :
    (settings.RunsOut clock e ∧ ∃ id, out = .error (.fault (.numberTooLarge id))) ∨
    match e.firstMalformed? with
    | some c => out = .error (.fault c.misfit)
    | none => ∃ e', out = .ok e' := by
  cases h with
  | names many => omega
  | values _ many => omega
  | malformed _ _ first =>
    rw [first]
    exact .inr rfl
  | full _ _ runsOut => exact .inl ⟨runsOut, _, rfl⟩
  | overrun => exact absurd rfl (inTime _)
  | ok _ _ wf =>
    rw [wf]
    exact .inr ⟨_, rfl⟩

end Outcome

end Settings

/-- A run fails with its limit, or because it asks for a number when all are issued. -/
def Failure.Expected (failure : Failure) (f : Forest) : Prop :=
  (∃ o, failure = .overrun o) ∨
    ∃ id, failure = .fault (.numberTooLarge id) ∧ Node.maxNumber < f.store.size

theorem Failure.expected_of_exhausted {failure : Failure} {f : Forest}
    (h : ∀ fault, failure = .fault fault → Store.Exhausted fault f.store) :
    failure.Expected f := by
  cases failure with
  | overrun o => exact .inl ⟨o, rfl⟩
  | fault fault =>
    obtain ⟨⟨id, rfl⟩, full⟩ := h fault rfl
    exact .inr ⟨id, rfl, full⟩

theorem Failure.Expected.exhausted {failure : Failure} {f : Forest} (h : failure.Expected f)
    (inTime : ∀ o, failure ≠ .overrun o) :
    ∃ id, failure = .fault (.numberTooLarge id) ∧ Node.maxNumber < f.store.size :=
  h.resolve_left fun ⟨o, eq⟩ => inTime o eq

/-- A usable node is pruned under usable assumptions unless the time is up or the numbers are. -/
theorem Session.Reached.expected_of_pruneUnder {x : Session} (h : x.Reached) {n : Node}
    {assumptions : List Node} (hn : x.Usable n) (ha : ∀ a ∈ assumptions, x.Usable a)
    {budget budget' : Budget} {failure : Failure} {g : Forest}
    (run : Forest.run (Pass.pruneUnder n assumptions) (x.forest, budget) =
      .error failure (g, budget')) : failure.Expected g := by
  have sound := h.sound
  -- Failing has nothing to do with what holds, so a record that no assumption is about will do.
  have means : Store.Means x.forest.vocabulary (fun _ => none) False x.forest.store n false :=
    ⟨sound.validNode hn, False.elim⟩
  have known : ∀ a ∈ assumptions,
      Store.Means x.forest.vocabulary (fun _ => none) False x.forest.store a true :=
    fun a h => ⟨sound.validNode (ha a h), False.elim⟩
  have pruned : Forest.Run.growth.Ensures _ (x.forest, budget) _ :=
    Forest.ensures_run (Pass.ensures_pruneUnder means known)
  exact Failure.expected_of_exhausted (pruned.of_error sound.forest run).2.2

theorem Session.Reached.expected_of_rewriting {x : Session} (h : x.Reached) {n : Node}
    (hn : x.Usable n) (y : Rewriting) {budget budget' : Budget} {failure : Failure} {g : Forest}
    (run : Forest.run (y.pass n) (x.forest, budget) = .error failure (g, budget')) :
    failure.Expected g := by
  have sound := h.sound
  have means : x.forest.Means (fun _ => none) n _ := .of_valid (sound.validNode hn)
  have rewritten : Forest.Run.growth.Ensures _ (x.forest, budget) _ :=
    Forest.ensures_run (y.keeps_pass means)
  exact Failure.expected_of_exhausted (rewritten.of_error sound.forest run).2.2

/-- Simplifying an expression fails with too many names, else too many values, else the first
malformed leaf, and else only when its time is up or the numbers are, and there is a time that is
enough. In a session passes fail with nothing else either. All that is handed to the parts that do
not ask is what they rely on: the fields of leaves and combined nodes fit, lists are ascending, and
an overlap leaves two rests. -/
theorem simplification_faults (settings : Settings) (e : Expression) :
    (∀ clock, let out := settings.simplify clock e
      (out = .error (.fault (.vocabularyFull .names)) ↔ Node.maxNames < e.nameCount) ∧
      (out = .error (.fault (.vocabularyFull .values)) ↔
        e.nameCount ≤ Node.maxNames ∧ Node.maxValues < e.valueCount) ∧
      (e.nameCount ≤ Node.maxNames → e.valueCount ≤ Node.maxValues →
        (∀ c, e.combinedCount ≤ Node.maxNumber → e.firstMalformed? = some c →
          out = .error (.fault c.misfit)) ∧
        ((∀ o, out ≠ .error (.overrun o)) →
          (settings.RunsOut clock e ∧ ∃ id, out = .error (.fault (.numberTooLarge id))) ∨
          match e.firstMalformed? with
          | some c => out = .error (.fault c.misfit)
          | none => ∃ e', out = .ok e'))) ∧
    (∃ checks, ∀ clock, (∀ k < checks, clock k < settings.milliseconds) →
      ∀ o, settings.simplify clock e ≠ .error (.overrun o)) ∧
    (∀ x : Session, x.Reached → ∀ (budget budget' : Budget) (failure : Failure) (g : Forest),
      (∀ (y : Rewriting) (n : Node), x.Usable n →
        Forest.run (y.pass n) (x.forest, budget) = .error failure (g, budget') →
        failure.Expected g) ∧
      (∀ (n : Node) (assumptions : List Node), x.Usable n → (∀ a ∈ assumptions, x.Usable a) →
        Forest.run (Pass.pruneUnder n assumptions) (x.forest, budget) =
          .error failure (g, budget') → failure.Expected g) ∧
      ∀ z : Revision, z.run (x.forest, budget) = .error failure (g, budget') →
        failure.Expected g) ∧
    (∀ (v : Vocabulary) (l : Leaf) (n : Node), v.encodeLeaf l = .ok n →
      ∃ ref a x, n = .leaf l.negated l.comparison.operator ref a x ∧
        a < Node.maxNames ∧ x < Node.maxValues) ∧
    (∀ (v : Vocabulary) (n m : Node), v.Encodes n →
      (n.unknownOfArgument = .ok m → m = .unknownOf n.argument ∧ n.argument < Node.maxNames) ∧
      (n.unknownOfReference = .ok m → m = .unknownOf n.value ∧ n.value < Node.maxNames)) ∧
    (∀ (k : Connective) (id : Nat) (n : Node), Node.ofListNumber k id = .ok n →
      id ≤ Node.maxNumber ∧ n = .combined k id) ∧
    (∀ (s : Store) (k : Connective) (l : List Node),
      (l.contains .invalid = true ∧ s.combine k l = .error .invalidMember) ∨
      (∃ fault, s.flatten k l = .error fault ∧ s.combine k l = .error fault) ∨
      s.combine k l = .ok (k.absorbingNode, s) ∨
      ∃ r, Ascending r ∧ s.combine k l = s.wrap k r) ∧
    ∀ (ms overlap : List Node) (r : Pass.Remainder) (w w₁ w₂ : Work),
      Pass.bestOverlap ms w = .ok (some overlap) w₁ → Pass.takeOut overlap ms w₁ = .ok r w₂ →
      2 ≤ r.rests.length := by
  refine ⟨fun clock => ?_, settings.exists_checks e, fun x reached budget budget' failure g => ?_,
    fun v l n => Vocabulary.exists_leaf_of_encodeLeaf,
    fun v n m code => ⟨Node.unknownOfArgument_lt, code.unknownOfReference_lt⟩,
    fun k id n => Node.ofListNumber_eq_ok_iff.1, Store.combine_cases,
    fun ms overlap r w w₁ w₂ => Pass.two_le_length_rests⟩
  · intro out
    have outcome : settings.Outcome clock e out := settings.outcome clock e
    exact ⟨outcome.eq_names_iff, outcome.eq_values_iff, fun fits fits' =>
      ⟨fun c room first => outcome.eq_misfit fits fits' room first,
        fun inTime => outcome.of_not_overrun fits fits' inTime⟩⟩
  · refine ⟨fun y n usable run => ?_, fun n assumptions usable usable' run => ?_, fun z run => ?_⟩
    · exact reached.expected_of_rewriting usable y run
    · exact reached.expected_of_pruneUnder usable usable' run
    · exact Failure.expected_of_exhausted (Revision.run_error reached.sound.forest run).2.2

namespace Sample

/-- `NONE AND a =`, where the leaf makes no difference but is malformed. -/
def absorbed : Expression :=
  .combined .and [.constant .none, .leaf ⟨false, "a", .equals, none⟩]

theorem absorbed_reported :
    Settings.simplify {} (fun _ => 0) absorbed = .error (.fault (.misfit "a" .missing)) := by
  have clauses := (simplification_faults {} absorbed).1 fun _ => 0
  have names : absorbed.nameCount ≤ Node.maxNames := by decide
  have values : absorbed.valueCount ≤ Node.maxValues := by decide
  exact (clauses.2.2 names values).1 _ (by decide) rfl

end Sample

end Criteria
