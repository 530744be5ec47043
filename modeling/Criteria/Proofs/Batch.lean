import Criteria.Proofs.Faults
import Criteria.Proofs.Isomorphism
import Criteria.Proofs.Soundness

/-!
# Simplifying several expressions together

**Theorem (`batch_simplification`).** Expressions that are simplified together come back as many and
in their order, and each means what it did. If their leaves are well-formed, and the names of all of
them together fit and so do the values, then simplifying them fails only when the time is up or all
numbers are issued, and there is a time that is enough.

Each expression is planted on its own and merged with those before it, so the invariant is one about
the last expression of a list: if the forest of the others has their words and roots that mean what
they do (`Forest.IsBatch`), then so has the merged one (`Forest.IsBatch.merge`). Too many words in
two vocabularies together are too many words in the expressions, so with all words fitting only the
numbers are left to fail with (`Forest.ofBatch_cases`). What comes after is one run over all roots,
under one budget.
-/

namespace Criteria

namespace Forest

variable {f g m : Forest} {e : Expression} {es : List Expression} {fault : Fault} {r : Record}

/-! ## Batches -/

/-- A valid forest with the words of some expressions and roots that mean what they do. -/
structure IsBatch (es : List Expression) (f : Forest) : Prop where
  valid : f.Valid
  means : ∀ r, List.Forall₂ (fun e n => f.holds r n = Expression.holds r e) es f.roots
  names : f.vocabulary.names.set = (es.flatMap (·.argumentNames)).toFinset
  values : f.vocabulary.values.set = (es.flatMap (·.values)).toFinset

theorem vocabulary_of_ofExpression (h : ofExpression e = .ok f) :
    Vocabulary.ofExpression e = .ok f.vocabulary := by
  unfold ofExpression at h
  obtain ⟨v, words, h⟩ := bind_eq_ok_iff.1 h
  obtain ⟨⟨n, g⟩, run, h⟩ := bind_eq_ok_iff.1 h
  cases h
  obtain ⟨-, le, -⟩ := (ensures_encode (fun _ => none) e _).of_ok (valid_ofVocabulary v)
    (complete_eq_ok run)
  have same : g.vocabulary = v := le.vocabulary_eq
  rw [words, ← same]
  rfl

theorem isBatch_ofExpression (h : ofExpression e = .ok f) : IsBatch [e] f := by
  obtain ⟨valid, n, roots, means⟩ := valid_ofExpression h
  obtain ⟨names, values⟩ := Vocabulary.set_of_ofExpression (vocabulary_of_ofExpression h)
  refine ⟨valid, fun r => ?_, ?_, ?_⟩
  · rw [roots]
    exact .cons (means r) .nil
  · rw [names, List.flatMap_singleton]
  · rw [values, List.flatMap_singleton]

/-- One more expression. -/
theorem IsBatch.merge (h : IsBatch es f) (h' : IsBatch [e] g) (run : f.merge g = .ok m) :
    IsBatch (es ++ [e]) m := by
  obtain ⟨valid, within, le, ns, roots, means⟩ := merge_eq_ok h.valid h'.valid run
  obtain ⟨-, words, -⟩ := merge_shape h.valid h'.valid run
  obtain ⟨names, values⟩ := Vocabulary.set_of_merge words
  refine ⟨valid, fun r => ?_, ?_, ?_⟩
  · have kept : List.Forall₂ (fun n n' => m.holds r n' = f.holds r n) f.roots f.roots :=
      List.forall₂_same.2 fun n hn => holds_of_within h.valid within le (h.valid.roots n hn)
    rw [roots]
    exact List.rel_append (forall₂_comp (h.means r) kept fun eq same => same.trans eq)
      (forall₂_comp (h'.means r) (means r) fun eq same => same.trans eq)
  · rw [names, h.names, h'.names, List.flatMap_append, List.toFinset_append]
  · rw [values, h.values, h'.values, List.flatMap_append, List.toFinset_append]

/-- The forest of a list of expressions, from that of all but the last. -/
theorem ofBatch_append (es : List Expression) (e : Expression) :
    ofBatch (es ++ [e]) = do
      match ← ofBatch es with
      | none => return some (← ofExpression e)
      | some f => return some (← f.merge (← ofExpression e)) := by
  cases es with
  | nil => rfl
  | cons d ds =>
    rw [List.cons_append, ofBatch, ofBatch]
    simp only [List.foldlM_append, bind_assoc, pure_bind, List.foldlM_cons, List.foldlM_nil,
      bind_pure]

theorem eq_nil_of_ofBatch (h : ofBatch es = .ok none) : es = [] := by
  cases es with
  | nil => rfl
  | cons e es =>
    obtain ⟨f, -, h⟩ := bind_eq_ok_iff.1 h
    obtain ⟨g, -, h⟩ := bind_eq_ok_iff.1 h
    cases h

theorem isBatch_of_ofBatch (h : ofBatch es = .ok (some f)) : IsBatch es f := by
  induction es using List.reverseRecOn generalizing f with
  | nil => cases h
  | append_singleton es e ih =>
    rw [ofBatch_append] at h
    obtain ⟨f?, before, h⟩ := bind_eq_ok_iff.1 h
    cases f? with
    | none =>
      obtain ⟨g, planted, h⟩ := bind_eq_ok_iff.1 h
      cases h
      rw [eq_nil_of_ofBatch before]
      exact isBatch_ofExpression planted
    | some f =>
      obtain ⟨g, planted, h⟩ := bind_eq_ok_iff.1 h
      obtain ⟨m, merged, h⟩ := bind_eq_ok_iff.1 h
      cases h
      exact (ih before).merge (isBatch_ofExpression planted) merged

/-! ## What planting a batch fails with -/

/-- A number is asked for when all of them are issued, when one of the expressions is planted or
when it is merged with those before it. -/
inductive BatchRunsOut (es : List Expression) : Prop
  | planting {before : List Expression} {e : Expression} {v : Vocabulary} {id : Nat} {f : Forest} :
      before ++ [e] <+: es → Vocabulary.ofExpression e = .ok v →
      encode e (.ofVocabulary v) = .error (.numberTooLarge id) f →
      Node.maxNumber < f.store.size → BatchRunsOut es
  | merging {before : List Expression} {e : Expression} {id : Nat} {f g : Forest} :
      before ++ [e] <+: es → ofBatch before = .ok (some f) → ofExpression e = .ok g →
      f.MergeFails g (.numberTooLarge id) → BatchRunsOut es

theorem BatchRunsOut.append (h : BatchRunsOut es) (es' : List Expression) :
    BatchRunsOut (es ++ es') := by
  have further : es <+: es ++ es' := List.prefix_append es es'
  cases h with
  | planting start words run full => exact .planting (start.trans further) words run full
  | merging start before planted fails => exact .merging (start.trans further) before planted fails

end Forest

/-- There are not too many names in some expressions together, nor too many values. -/
structure Expression.WordsFit (es : List Expression) : Prop where
  names : (es.flatMap (·.argumentNames)).toFinset.card ≤ Node.maxNames
  values : (es.flatMap (·.values)).toFinset.card ≤ Node.maxValues

theorem Expression.WordsFit.of_subset {es es' : List Expression} (h : WordsFit es)
    (sub : es' ⊆ es) : WordsFit es' := by
  have fewer : ∀ words : Expression → List String,
      (es'.flatMap words).toFinset.card ≤ (es.flatMap words).toFinset.card := by
    refine fun words => Finset.card_le_card fun w hw => ?_
    obtain ⟨e, he, mem⟩ := List.mem_flatMap.1 (List.mem_toFinset.1 hw)
    exact List.mem_toFinset.2 (List.mem_flatMap.2 ⟨e, sub he, mem⟩)
  exact ⟨(fewer _).trans h.names, (fewer _).trans h.values⟩

namespace Forest

/-- A well-formed expression whose words fit is planted unless the numbers run out. -/
theorem ofExpression_of_wordsFit (wf : e.WellFormed) (fit : Expression.WordsFit [e]) :
    (∃ f, ofExpression e = .ok f) ∨
    ∃ v id f, Vocabulary.ofExpression e = .ok v ∧
      encode e (.ofVocabulary v) = .error (.numberTooLarge id) f ∧
      Node.maxNumber < f.store.size ∧ ofExpression e = .error (.numberTooLarge id) := by
  obtain ⟨names, values⟩ := fit
  rw [List.flatMap_singleton, Expression.card_argumentNames] at names
  rw [List.flatMap_singleton, Expression.card_values] at values
  rcases Vocabulary.ofExpression_cases e with ⟨many, -⟩ | ⟨-, many, -⟩ | ⟨-, -, v, words, covers⟩
  · omega
  · omega
  rcases ofExpression_cases words covers with ⟨-, planted⟩ | ⟨c, first, -⟩ |
    ⟨-, id, f, run, full, failed⟩
  · exact .inl planted
  · cases first.symm.trans wf.firstMalformed?
  · exact .inr ⟨v, id, f, words, run, full, failed⟩

/-- With the words of all of them fitting, too many in two vocabularies is impossible. -/
theorem IsBatch.numberTooLarge_of_mergeFails (h : IsBatch es f) (h' : IsBatch [e] g)
    (fit : Expression.WordsFit (es ++ [e])) (fails : f.MergeFails g fault) :
    ∃ id, fault = .numberTooLarge id := by
  obtain ⟨names, values⟩ := fit
  rw [List.flatMap_append, List.toFinset_append, ← h.names, ← h'.names] at names
  rw [List.flatMap_append, List.toFinset_append, ← h.values, ← h'.values] at values
  cases fails with
  | names many => exact absurd names (not_le.2 many)
  | values many => exact absurd values (not_le.2 many)
  | numbers => exact ⟨_, rfl⟩

/-- Well-formed expressions whose words fit are planted together unless the numbers run out. -/
theorem ofBatch_cases (wf : ∀ e ∈ es, e.WellFormed) (fit : Expression.WordsFit es) :
    (∃ f?, ofBatch es = .ok f?) ∨
    BatchRunsOut es ∧ ∃ id, ofBatch es = .error (.numberTooLarge id) := by
  induction es using List.reverseRecOn with
  | nil => exact .inl ⟨none, rfl⟩
  | append_singleton es e ih =>
    have wf' : e.WellFormed := wf e (by simp)
    rw [ofBatch_append]
    rcases ih (fun d hd => wf d (by simp [hd])) (fit.of_subset (by simp)) with
      ⟨f?, before⟩ | ⟨runsOut, id, failed⟩
    · rcases ofExpression_of_wordsFit wf' (fit.of_subset (by simp)) with
        ⟨g, planted⟩ | ⟨v, id, g, words, run, full, failed⟩
      · rw [before, planted]
        cases f? with
        | none => exact .inl ⟨_, rfl⟩
        | some f =>
          have batch := isBatch_of_ofBatch before
          have batch' := isBatch_ofExpression planted
          show (∃ f?, (f.merge g >>= fun m => pure (some m)) = .ok f?) ∨
            _ ∧ ∃ id, (f.merge g >>= fun m => pure (some m)) = .error (.numberTooLarge id)
          cases merged : f.merge g with
          | ok m => exact .inl ⟨some m, rfl⟩
          | error fault =>
            have fails := mergeFails_of_merge batch.valid batch'.valid merged
            obtain ⟨id, rfl⟩ := batch.numberTooLarge_of_mergeFails batch' fit fails
            exact .inr ⟨.merging (List.prefix_refl _) before planted fails, id, rfl⟩
      · refine .inr ⟨.planting (List.prefix_refl _) words run full, id, ?_⟩
        rw [before, failed]
        cases f? <;> rfl
    · refine .inr ⟨runsOut.append _, id, ?_⟩
      rw [failed]
      rfl

/-! ## Reading all roots back -/

/-- Valid nodes are read back in turn, each as what it spells. -/
theorem exists_mapM_express {ns : List Node} (hf : f.Valid) (hn : ∀ n ∈ ns, f.ValidNode n) :
    ∃ t, ns.mapM express f = .ok (ns.map f.spell) { f with translator := t } := by
  induction ns generalizing f with
  | nil => exact ⟨f.translator, rfl⟩
  | cons n ns ih =>
    obtain ⟨t, head, faithful, same⟩ := exists_express hf (hn n List.mem_cons_self)
    -- What is remembered changes from root to root, but neither the words nor the lists do.
    obtain ⟨valid, le⟩ := hf.withTranslator faithful same
    obtain ⟨u, tail⟩ := ih valid fun m hm =>
      validNode_of_extends le (hn m (List.mem_cons_of_mem _ hm))
    have spell : spell { f with translator := t } = f.spell := by
      funext m
      exact congrArg (Store.spell f.store · m) same
    rw [spell] at tail
    exact ⟨u, mapM_cons_of_ok head tail⟩

end Forest

/-! ## Simplifying a batch -/

namespace Settings

variable {settings : Settings} {clock : Nat → Nat} {es rs : List Expression} {f g : Forest}

/-- A number is asked for when all of them are issued, when the expressions are planted together or
when their roots are simplified. -/
inductive BatchRunsOut (settings : Settings) (clock : Nat → Nat) (es : List Expression) : Prop
  | planting : Forest.BatchRunsOut es → BatchRunsOut settings clock es
  | simplifying {f g : Forest} {id : Nat} {budget : Budget} : Forest.ofBatch es = .ok (some f) →
      Forest.simplify settings.cleanup settings.housekeeping (f, settings.budget clock) =
        .error (.fault (.numberTooLarge id)) (g, budget) →
      Node.maxNumber < g.store.size → BatchRunsOut settings clock es

theorem simplifyAll_of_ofBatch_error {fault : Fault} (h : Forest.ofBatch es = .error fault) :
    settings.simplifyAll clock es = .error (.fault fault) := by
  rw [simplifyAll, h]
  rfl

theorem simplifyAll_of_simplifyForest_error {failure : Failure}
    (h : Forest.ofBatch es = .ok (some f))
    (failed : settings.simplifyForest clock f = .error failure) :
    settings.simplifyAll clock es = .error failure := by
  rw [simplifyAll, h]
  show (settings.simplifyForest clock f >>= _) = _
  rw [failed]
  rfl

/-- The roots of a simplified forest are all read back. -/
theorem simplifyAll_eq_ok (h : Forest.ofBatch es = .ok (some f))
    (done : settings.simplifyForest clock f = .ok g) :
    settings.simplifyAll clock es = .ok (g.roots.map g.spell) := by
  have hf := (Forest.isBatch_of_ofBatch h).valid
  have hg := (simplifyForest_ok hf done).1
  obtain ⟨t, run⟩ := Forest.exists_mapM_express hg hg.roots
  have read : Forest.expressRoots g = .ok (g.roots.map g.spell) { g with translator := t } := run
  rw [simplifyAll, h]
  show (settings.simplifyForest clock f >>= _) = _
  rw [done]
  show (orFail (Forest.complete Forest.expressRoots g) >>= _) = _
  rw [Forest.complete, read]
  rfl

/-- Expressions that are simplified together mean what they did. -/
theorem holds_simplifyAll (h : settings.simplifyAll clock es = .ok rs) (r : Record) :
    List.Forall₂ (fun e e' => e'.holds r = e.holds r) es rs := by
  cases batch : Forest.ofBatch es with
  | error fault =>
    rw [simplifyAll_of_ofBatch_error batch] at h
    cases h
  | ok f? =>
    cases f? with
    | none =>
      rw [simplifyAll, batch] at h
      cases h
      rw [Forest.eq_nil_of_ofBatch batch]
      exact .nil
    | some f =>
      have planted := Forest.isBatch_of_ofBatch batch
      cases done : settings.simplifyForest clock f with
      | error failure =>
        rw [simplifyAll_of_simplifyForest_error batch done] at h
        cases h
      | ok g =>
        obtain ⟨hg, simplified⟩ := simplifyForest_ok planted.valid done
        rw [simplifyAll_eq_ok batch done] at h
        cases h
        have read : List.Forall₂ (fun n e => e.holds r = g.holds r n) g.roots
            (g.roots.map g.spell) :=
          List.forall₂_map_right_iff.2 (List.forall₂_same.2 fun n hn =>
            Forest.holds_spell hg (hg.roots n hn))
        have roots : List.Forall₂ (fun e n' => g.holds r n' = e.holds r) es g.roots :=
          forall₂_comp (planted.means r) (simplified r) fun eq same => same.trans eq
        exact forall₂_comp roots read fun eq same => same.trans eq

/-- What simplifying well-formed expressions whose words fit comes to. -/
theorem simplifyAll_cases (settings : Settings) (clock : Nat → Nat)
    (wf : ∀ e ∈ es, e.WellFormed) (fit : Expression.WordsFit es) :
    (∃ rs, settings.simplifyAll clock es = .ok rs) ∨
    (∃ o, settings.simplifyAll clock es = .error (.overrun o)) ∨
    settings.BatchRunsOut clock es ∧
      ∃ id, settings.simplifyAll clock es = .error (.fault (.numberTooLarge id)) := by
  rcases Forest.ofBatch_cases wf fit with ⟨f?, batch⟩ | ⟨runsOut, id, failed⟩
  · cases f? with
    | none =>
      rw [simplifyAll, batch]
      exact .inl ⟨[], rfl⟩
    | some f =>
      have hf := (Forest.isBatch_of_ofBatch batch).valid
      rcases simplifyForest_cases settings clock hf with
        ⟨g, done⟩ | ⟨o, late⟩ | ⟨id, g, budget, run, full, failed⟩
      · exact .inl ⟨_, simplifyAll_eq_ok batch done⟩
      · exact .inr (.inl ⟨o, simplifyAll_of_simplifyForest_error batch late⟩)
      · exact .inr (.inr ⟨.simplifying batch run full, id,
          simplifyAll_of_simplifyForest_error batch failed⟩)
  · exact .inr (.inr ⟨.planting runsOut, id, simplifyAll_of_ofBatch_error failed⟩)

/-- For every list of expressions there is a number of checks such that time for so many is
enough. -/
theorem exists_checks_all (settings : Settings) (es : List Expression) :
    ∃ checks, ∀ clock, (∀ k < checks, clock k < settings.milliseconds) →
      ∀ o, settings.simplifyAll clock es ≠ .error (.overrun o) := by
  cases batch : Forest.ofBatch es with
  | error fault =>
    refine ⟨0, fun clock _ o eq => ?_⟩
    rw [simplifyAll_of_ofBatch_error batch] at eq
    cases eq
  | ok f? =>
    cases f? with
    | none =>
      refine ⟨0, fun clock _ o eq => ?_⟩
      rw [simplifyAll, batch] at eq
      cases eq
    | some f =>
      have hf := (Forest.isBatch_of_ofBatch batch).valid
      obtain ⟨checks, inTime⟩ := settings.exists_checks_forest hf
      refine ⟨checks, fun clock time o eq => ?_⟩
      cases done : settings.simplifyForest clock f with
      | ok g =>
        rw [simplifyAll_eq_ok batch done] at eq
        cases eq
      | error failure =>
        rw [simplifyAll_of_simplifyForest_error batch done] at eq
        cases eq
        exact inTime clock time o done

end Settings

/-- Expressions that are simplified together come back as many and in order, and each means what it
did. If they are well-formed and all words fit, then simplifying them fails only when the time is up
or all numbers are issued, and there is a time that is enough. -/
theorem batch_simplification (settings : Settings) (es : List Expression) :
    (∀ clock rs, settings.simplifyAll clock es = .ok rs →
      rs.length = es.length ∧
        List.Forall₂ (fun e e' => ∀ r, e'.holds r = e.holds r) es rs) ∧
    ((∀ e ∈ es, e.WellFormed) → Expression.WordsFit es →
      (∀ clock, (∀ o, settings.simplifyAll clock es ≠ .error (.overrun o)) →
        (∃ rs, settings.simplifyAll clock es = .ok rs) ∨
        settings.BatchRunsOut clock es ∧
          ∃ id, settings.simplifyAll clock es = .error (.fault (.numberTooLarge id))) ∧
      ∃ checks, ∀ clock, (∀ k < checks, clock k < settings.milliseconds) →
        ∀ o, settings.simplifyAll clock es ≠ .error (.overrun o)) := by
  refine ⟨fun clock rs done => ?_, fun wf fit => ⟨fun clock inTime => ?_, ?_⟩⟩
  · have means := Settings.holds_simplifyAll done
    exact ⟨(means fun _ => none).length_eq.symm, forall₂_forall means⟩
  · rcases Settings.simplifyAll_cases settings clock wf fit with ok | ⟨o, late⟩ | runsOut
    · exact .inl ok
    · exact absurd late (inTime o)
    · exact .inr runsOut
  · exact settings.exists_checks_all es

namespace Sample

/-- The forest of `b = y` has the code that `a = x` has over its own words. -/
theorem planted_other : ∃ t,
    Forest.ofExpression (.leaf otherEqual) = .ok ⟨t, .empty Store.defaultThreshold, [equal]⟩ ∧
    t.Faithful ∧ t.vocabulary = foreign := by
  have noName : Vocabulary.empty.names.number? "b" = none := by
    simp [Vocabulary.empty, WordList.number?, WordList.empty]
  let named : Vocabulary := { foreign with values := .empty, values_le := Nat.zero_le _ }
  have noValue : named.values.number? "y" = none := by
    simp [named, WordList.number?, WordList.empty]
  have words : Vocabulary.ofExpression (.leaf otherEqual) = .ok foreign := by
    refine bind_eq_ok_iff.2 ⟨named, ?_, ?_⟩
    · show ["b"].foldlM Vocabulary.addName .empty = _
      rw [List.foldlM_cons, Vocabulary.addName_of_new noName (by decide)]
      rfl
    · show ["y"].foldlM Vocabulary.addValue named = _
      rw [List.foldlM_cons, Vocabulary.addValue_of_new noValue (by show 0 < 16384; decide)]
      rfl
  exact (Forest.Planted.leaf codes_otherEqual).ofExpression words

/-- Merged with a forest over the first words, it is coded anew. -/
theorem merge_leaf {t u : Translator} (ht : t.Faithful) (hu : u.Faithful)
    (words : t.vocabulary = vocabulary) (others : u.vocabulary = foreign) :
    ∃ w, Forest.merge ⟨t, store, [both]⟩ ⟨u, .empty Store.defaultThreshold, [equal]⟩ =
      .ok ⟨w, store, [both, movedEqual]⟩ ∧ w.vocabulary = united := by
  obtain ⟨m, merged, united_eq⟩ : ∃ m, t.merge u = .ok m ∧ m.vocabulary = united := by
    rcases t.merge_cases u with ⟨m, merged, run⟩ | ⟨fault, -, run⟩
    · rw [words, others, merge_foreign] at run
      exact ⟨m, merged, (Except.ok.inj run).symm⟩
    · rw [words, others, merge_foreign] at run
      cases run
  let other : Forest := ⟨u, .empty Store.defaultThreshold, [equal]⟩
  obtain ⟨w, u', taken, -, same, -⟩ :=
    Forest.exists_recodeWithin_leaf other 1 (w := foreign)
      (x := .start ⟨m, store, [both]⟩ other) (ht.merge merged).1 ⟨hu, others⟩
      ((congrArg (·.continues foreign) united_eq).trans apart_united) codes_otherEqual
      (united_eq.symm ▸ codes_movedEqual : m.vocabulary.Codes otherEqual movedEqual)
      Std.HashMap.getElem?_empty
  have roots : [equal].mapM (Forest.recodeWithin other 2) (.start ⟨m, store, [both]⟩ other) =
      .ok [movedEqual] _ :=
    mapM_cons_of_ok taken rfl
  exact ⟨w, Forest.merge_of_recodeAll (f := ⟨t, store, [both]⟩) merged roots,
    same.trans united_eq⟩

theorem planted_batch : ∃ t, Forest.ofBatch [expression, .leaf otherEqual] =
    .ok (some ⟨t, store, [both, movedEqual]⟩) ∧ t.vocabulary = united := by
  obtain ⟨t, planted, faithful, same⟩ := planted
  obtain ⟨u, planted', faithful', same'⟩ := planted_other
  obtain ⟨w, merged, words⟩ := merge_leaf faithful faithful' same same'
  refine ⟨w, ?_, words⟩
  rw [show [expression, .leaf otherEqual] = [expression] ++ [.leaf otherEqual] from rfl,
    Forest.ofBatch_append]
  refine bind_eq_ok_iff.2 ⟨_, bind_eq_ok_iff.2 ⟨_, planted, rfl⟩, ?_⟩
  exact bind_eq_ok_iff.2 ⟨_, planted', bind_eq_ok_iff.2 ⟨_, merged, rfl⟩⟩

theorem simplified_batch (t : Translator) :
    Forest.simplify settings.cleanup settings.housekeeping
        (⟨t, store, [both, movedEqual]⟩, settings.budget clock) =
      .ok () (⟨t, store, [equal, movedEqual]⟩,
        ⟨.deadline settings.milliseconds clock, 11⟩) := by
  have few : store.live ≤ settings.housekeeping := by
    rw [store, Store.live_push]
    decide
  have kept : (Forest.sweepAbove settings.housekeeping ⟨t, store, [both, movedEqual]⟩).2 =
      ⟨t, store, [both, movedEqual]⟩ :=
    Forest.sweepAbove_of_le few
  rw [Forest.simplify_eq, kept]
  rfl

theorem simplify_two : settings.simplifyAll clock [expression, .leaf otherEqual] =
    .ok [.leaf equalLeaf, .leaf otherEqual] := by
  obtain ⟨t, planted, same⟩ := planted_batch
  have simplified : settings.simplifyForest clock ⟨t, store, [both, movedEqual]⟩ =
      .ok ⟨t, store, [equal, movedEqual]⟩ := by
    rw [Settings.simplifyForest, simplified_batch t]
  have spelled : ∀ {l n}, united.Codes l n →
      Forest.spell ⟨t, store, [equal, movedEqual]⟩ n = .leaf l := by
    intro l n code
    rw [← same] at code
    exact Store.spell_of_codes code
  have first : united.Codes equalLeaf equal := .value (by decide) rfl rfl
  rw [Settings.simplifyAll_eq_ok planted simplified, List.map_cons, List.map_cons, List.map_nil,
    spelled first, spelled codes_movedEqual]

/-- `a = x AND a IS NOT UNKNOWN` and `b = y`, which have no word in common, are simplified together,
to `a = x` and to the second as it is. -/
theorem simplification_of_two :
    settings.simplifyAll clock [expression, .leaf otherEqual] =
      .ok [.leaf equalLeaf, .leaf otherEqual] ∧
    List.Forall₂ (fun e e' : Expression => ∀ r, e'.holds r = e.holds r)
      [expression, .leaf otherEqual] [.leaf equalLeaf, .leaf otherEqual] ∧
    ((∃ rs, settings.simplifyAll clock [expression, .leaf otherEqual] = .ok rs) ∨
      settings.BatchRunsOut clock [expression, .leaf otherEqual] ∧
        ∃ id, settings.simplifyAll clock [expression, .leaf otherEqual] =
          .error (.fault (.numberTooLarge id))) ∧
    ∃ checks, ∀ clock, (∀ k < checks, clock k < settings.milliseconds) → ∀ o,
      settings.simplifyAll clock [expression, .leaf otherEqual] ≠ .error (.overrun o) := by
  obtain ⟨means, succeeds⟩ := batch_simplification settings [expression, .leaf otherEqual]
  have wf : ∀ e ∈ [expression, .leaf otherEqual], e.WellFormed := by decide
  have fit : Expression.WordsFit [expression, .leaf otherEqual] := ⟨by decide, by decide⟩
  obtain ⟨outcome, enough⟩ := succeeds wf fit
  have inTime : ∀ o, settings.simplifyAll clock [expression, .leaf otherEqual] ≠
      .error (.overrun o) := by
    intro o late
    rw [simplify_two] at late
    cases late
  exact ⟨simplify_two, (means clock _ simplify_two).2, outcome clock inTime, enough⟩

end Sample

end Criteria
